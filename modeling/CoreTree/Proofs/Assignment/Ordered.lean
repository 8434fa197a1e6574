import CoreTree.Proofs.Assignment.Single

/-! # Bridges behind writes

The bridges of a branch stand behind what the branch writes, and so the versions of a variable go
up along every path of straight code: when a version is copied it has its last value. One kind of
branch is an exception. An out-variable at its end counts as a read that may be moved, and the
bridges are put in front of what it writes.
-/
namespace CoreTree
set_option autoImplicit false

open Move

/-! ## Versions that go up -/

/-- Of two versions of one variable, the later is the higher. -/
def Climbing (cells : List (Symbol × Nat)) : Prop :=
  cells.Pairwise fun c d => c.1 = d.1 → c.2 < d.2

/-- The versions fit, and go up. -/
def Climbs (low high : Symbol → Nat) (cells : List (Symbol × Nat)) : Prop :=
  Fits low high cells ∧ Climbing cells

theorem layout_climbs : Layout Climbs where
  nil low high := ⟨fits_nil low high, .nil⟩
  single hLow hHigh := ⟨layout_fits.single hLow hHigh, List.pairwise_singleton _ _⟩
  widen h hLow hHigh := ⟨h.1.widen hLow hHigh, h.2⟩
  append := by
    rintro low mid high cells cells' ⟨hFits, hClimbs⟩ ⟨hFits', hClimbs'⟩ hLow hHigh
    refine ⟨hFits.append hFits' hLow hHigh, List.pairwise_append.mpr ⟨hClimbs, hClimbs', ?_⟩⟩
    rintro ⟨x, version⟩ hc ⟨_, version'⟩ hc' rfl
    exact (hFits.2 _ hc).2.trans_le (hFits'.2 _ hc').1
  topped := by
    rintro start ended low high cells bridges ⟨hFits, hClimbs⟩ hTops hStart hEnded
    refine ⟨hFits.topped hTops hStart hEnded, List.pairwise_append.mpr ⟨hClimbs, ?_, ?_⟩⟩
    · refine List.pairwise_map.mpr ((List.pairwise_map.mp hTops.names).imp ?_)
      exact fun hNames hEq => absurd hEq hNames
    · rintro ⟨x, version⟩ hc _ hCell hName
      obtain ⟨b, hb, rfl⟩ := List.mem_map.mp hCell
      obtain rfl : x = b.name := hName
      exact hTops.lt_target hb (hFits.2 _ hc).1 (hFits.2 _ hc).2

/-- What is bridged behind a last write may as well be bridged in front of it, if it is another
variable. -/
theorem Climbing.bridged_before {cells bridges : List (Symbol × Nat)} {c : Symbol × Nat}
    (h : Climbing (cells ++ [c] ++ bridges)) (hOther : ∀ d ∈ bridges, d.1 ≠ c.1) :
    Climbing (cells ++ (bridges ++ [c])) := by
  obtain ⟨hFirst, hBridges, hAcross⟩ := List.pairwise_append.mp h
  obtain ⟨hCells, -, hLast⟩ := List.pairwise_append.mp hFirst
  refine List.pairwise_append.mpr ⟨hCells, List.pairwise_append.mpr
    ⟨hBridges, List.pairwise_singleton _ _, fun d hd e he hEq => ?_⟩, fun d hd e he => ?_⟩
  · obtain rfl := List.mem_singleton.mp he
    exact absurd hEq (hOther d hd)
  · obtain he | he := List.mem_append.mp he
    · exact hAcross d (List.mem_append_left _ hd) e he
    · exact hLast d hd e he

namespace Code

/-- In some run of the branch, what is left of it ends in an out-variable of this name. -/
def EndsOut (x : Symbol) (n : Option Node) : Prop :=
  ∃ file start st moves e st', Runs.RanBranch file start n st moves e st' ∧
    ∃ s v, (branchStatements (e.bind (·.node))).getLast? = some (.var s v) ∧ v.out = true ∧
      v.name = x

theorem not_endsOut_of_gives {x : Symbol} {m : Node} (h : (transform m).Gives fun o =>
    ∀ s v, o.node.statements.getLast? ≠ some (.var s v)) : ¬ EndsOut x (some m) := by
  rintro ⟨_, _, _, _, _, _, ⟨o, _, hRuns, -, rfl⟩, s, v, hLast, -⟩
  have hStatements : branchStatements o.node.toOption = o.node.statements := by
    unfold Node.toOption
    split
    · rename_i hNop
      obtain ⟨s, hs⟩ := o.node.isNop_iff.mp hNop
      rw [hs]
      rfl
    · rfl
  exact h _ _ _ _ _ hRuns s v (hStatements ▸ hLast)

/-- The bridges of a branch come behind everything it assigns, but for an out-variable at its end
that is not bridged itself. -/
theorem closes_climbs {n other : Option Node} (h : ∀ x, EndsOut x n → ¬ Changes x other) :
    Closes Climbs n other := by
  intro file start st moves e st' hRan s bridges before closed after hClose hChanges hLies low high
    hTops hStart hEnded π leaves hPath
  obtain ⟨l, hBefore⟩ | ⟨π₁, π₂, l, hBranch, rfl, hNone | ⟨s', v, hLast, hOut, hWrite⟩⟩ :=
    parted_of_close hClose hPath
  · exact layout_climbs.widen (hLies π l hBefore) hStart hEnded
  · subst hNone
    rw [List.append_nil] at hBranch ⊢
    exact layout_climbs.topped (hLies π₁ l hBranch) hTops hStart hEnded
  · subst hWrite
    obtain ⟨hFits, hClimbing⟩ := layout_climbs.topped (hLies _ l hBranch) hTops hStart hEnded
    refine ⟨hFits.perm ?_, hClimbing.bridged_before fun d hd hName => ?_⟩
    · rw [List.append_assoc]
      exact List.perm_append_comm.append_left π₁
    · obtain ⟨b, hb, rfl⟩ := List.mem_map.mp hd
      have hName : b.name = v.name := hName
      exact h v.name ⟨_, _, _, _, _, _, hRan, s', v, hLast, hOut, rfl⟩ (hName ▸ hChanges b hb)

end Code

/-- No branch of a conditional ends in an out-variable that the other branch changes too. -/
def Node.KeepsOuts : Node → Prop
  | .cond _ _ _ body other =>
    ∀ x, ¬ (Code.EndsOut x body ∧ Code.Changes x other) ∧
      ¬ (Code.EndsOut x other ∧ Code.Changes x body)
  | _ => True

theorem Node.climbs_of_everywhere {n : Node} (h : n.Everywhere false IsFlat)
    (hKeeps : ∀ m, n.Comes m → m.KeepsOuts) : Code.LaidOut Climbs n := by
  refine laidOut_of_comes layout_climbs h fun m hm => ?_
  have hKept := hKeeps m hm
  cases m with
  | cond =>
    exact ⟨Code.closes_climbs fun x hEnds hChanges => (hKept x).1 ⟨hEnds, hChanges⟩,
      Code.closes_climbs fun x hEnds hChanges => (hKept x).2 ⟨hEnds, hChanges⟩⟩
  | _ => trivial

/-! ## What the versions hold -/

/-- An assignment on a path: of a value that comes from elsewhere, such as what an out-variable
receives, or of what another version holds. -/
inductive Assignment (V : Type) where
  | given (cell : Symbol × Nat) (value : V)
  | copy (cell source : Symbol × Nat)

namespace Assignment

variable {V : Type}

def cell : Assignment V → Symbol × Nat
  | given c _ | copy c _ => c

def run : Assignment V → (Symbol × Nat → V) → Symbol × Nat → V
  | given c value, store => Function.update store c value
  | copy c source, store => Function.update store c (store source)

/-- What the versions hold behind the steps. -/
def runAll (σ : List (Assignment V)) (store : Symbol × Nat → V) : Symbol × Nat → V :=
  σ.foldl (fun store step => step.run store) store

variable {σ : List (Assignment V)} {store : Symbol × Nat → V} {c : Symbol × Nat}

theorem run_of_ne (step : Assignment V) (h : step.cell ≠ c) : step.run store c = store c := by
  cases step <;> exact Function.update_of_ne h.symm _ _

theorem runAll_append (σ σ' : List (Assignment V)) :
    runAll (σ ++ σ') store = runAll σ' (runAll σ store) := List.foldl_append

theorem runAll_of_notMem (h : c ∉ σ.map cell) : runAll σ store c = store c := by
  induction σ generalizing store with
  | nil => rfl
  | cons step σ ih =>
    obtain ⟨hHead, hRest⟩ := not_or.mp (mt List.mem_cons.mpr h)
    exact (ih hRest).trans (step.run_of_ne (Ne.symm hHead))

/-- A version that is assigned once holds what it was given. -/
theorem runAll_of_given {value : V} (hNodup : (σ.map cell).Nodup) (h : given c value ∈ σ) :
    runAll σ store c = value := by
  obtain ⟨σ₁, σ₂, rfl⟩ := List.append_of_mem h
  rw [List.map_append, List.map_cons, List.nodup_middle, List.nodup_cons, List.mem_append,
    not_or] at hNodup
  obtain ⟨⟨-, hAfter⟩, -⟩ := hNodup
  rw [runAll_append]
  exact (runAll_of_notMem hAfter).trans (Function.update_self _ _ _)

/-- A version that is copied when it has its last value is held twice at the end. -/
theorem runAll_of_copy {source : Symbol × Nat} {σ₁ σ₂ : List (Assignment V)}
    (h : c ∉ σ₂.map cell) (hSource : source ≠ c) (hLast : source ∉ σ₂.map cell) :
    runAll (σ₁ ++ copy c source :: σ₂) store c =
      runAll (σ₁ ++ copy c source :: σ₂) store source := by
  rw [runAll_append]
  show runAll σ₂ ((copy c source).run (runAll σ₁ store)) c =
    runAll σ₂ ((copy c source).run (runAll σ₁ store)) source
  rw [runAll_of_notMem h, runAll_of_notMem hLast, run_of_ne (copy c source) hSource.symm]
  exact Function.update_self _ _ _

end Assignment

open Assignment (given copy)

mutual
/-- A path with what it assigns. A variable that is assigned a variable copies it; what is assigned
otherwise may be any value. -/
inductive Node.Performs {V : Type} : Node → List (Assignment V) → Bool → Prop where
  | atom (s : Span) (a : Atom) : Node.Performs (.atom s a) [] false
  | read (s : Span) (v : Var) (h : v.out = false) : Node.Performs (.var s v) [] false
  | write (s : Span) (v : Var) (h : v.out = true) (value : V) :
    Node.Performs (.var s v) [.given v.cell value] false
  | seq {s : Span} {stmts : List Node} {σ : List (Assignment V)} {leaves : Bool}
    (h : PerformsAll stmts σ leaves) : Node.Performs (.seq s stmts) σ leaves
  | onTrue {s : Span} {test : Node} {body other : Option Node} {σ σ' : List (Assignment V)}
    {leaves : Bool} (hTest : Node.Performs test σ false) (h : PerformsAll body.toList σ' leaves) :
    Node.Performs (.cond s .whenTrue test body other) (σ ++ σ') leaves
  | onFalse {s : Span} {test : Node} {body other : Option Node} {σ σ' : List (Assignment V)}
    {leaves : Bool} (hTest : Node.Performs test σ false) (h : PerformsAll other.toList σ' leaves) :
    Node.Performs (.cond s .whenTrue test body other) (σ ++ σ') leaves
  | inTest {s : Span} {test : Node} {body other : Option Node} {σ : List (Assignment V)}
    (hTest : Node.Performs test σ true) : Node.Performs (.cond s .whenTrue test body other) σ true
  | jump {s : Span} {kind : JumpKind} {value : Option Node} {σ : List (Assignment V)}
    {leaves : Bool} (h : PerformsAll value.toList σ leaves) :
    Node.Performs (.jump s kind value) σ true
  | copies {s s' s'' : Span} (v w : Var) (h : w.out = false) :
    Node.Performs (.assign s (.var s' v) (.var s'' w)) [.copy v.cell w.cell] false
  | assign {s : Span} {target value : Node} {σ : List (Assignment V)} {leaves : Bool}
    (hOther : target.isVar = false ∨ value.plainVar? = none)
    (h : PerformsAll [value, target.asTarget] σ leaves) :
    Node.Performs (.assign s target value) σ leaves
  | multi {s : Span} {targets values : List Node} {σ : List (Assignment V)} {leaves : Bool}
    (h : PerformsAll (values ++ targets.map Node.asTarget) σ leaves) :
    Node.Performs (.multi s targets values) σ leaves
  | call {s : Span} {receiver : Option Node} {name : Symbol} {args : List Node}
    {σ : List (Assignment V)} {leaves : Bool} (h : PerformsAll (receiver.toList ++ args) σ leaves) :
    Node.Performs (.call s receiver name args none) σ leaves
  | isA {s : Span} {subject : Node} {type : ConstPath} {σ : List (Assignment V)} {leaves : Bool}
    (h : Node.Performs subject σ leaves) : Node.Performs (.isA s subject type) σ leaves
  | define (s : Span) (kind : DefKind) (name : Symbol) (params : List (Param Node))
    (body : Option Node) : Node.Performs (.define s kind name params body) [] false

inductive PerformsAll {V : Type} : List Node → List (Assignment V) → Bool → Prop where
  | nil : PerformsAll [] [] false
  | cons {n : Node} {ns : List Node} {σ σ' : List (Assignment V)} {leaves : Bool}
    (h : n.Performs σ false) (hRest : PerformsAll ns σ' leaves) :
    PerformsAll (n :: ns) (σ ++ σ') leaves
  | here {n : Node} {ns : List Node} {σ : List (Assignment V)} (h : n.Performs σ true) :
    PerformsAll (n :: ns) σ true
end

mutual
theorem Node.Performs.path {V : Type} {n : Node} {σ : List (Assignment V)} {leaves : Bool} :
    n.Performs σ leaves → n.Path (σ.map Assignment.cell) leaves
  | .atom s a => .atom s a
  | .read s v h => .read s v h
  | .write s v h _ => .write s v h
  | .seq h => .seq h.path
  | .onTrue hTest h => List.map_append ▸ .onTrue hTest.path h.path
  | .onFalse hTest h => List.map_append ▸ .onFalse hTest.path h.path
  | .inTest hTest => .inTest hTest.path
  | .jump h => .jump h.path
  | .copies v w h => .assign (.cons (.read _ w h) (pathAll_singleton_iff.mpr (.write _ _ rfl)))
  | .assign _ h => .assign h.path
  | .multi h => .multi h.path
  | .call h => .call h.path
  | .isA h => .isA h.path
  | .define s kind name params body => .define s kind name params body

theorem PerformsAll.path {V : Type} {ns : List Node} {σ : List (Assignment V)} {leaves : Bool} :
    PerformsAll ns σ leaves → PathAll ns (σ.map Assignment.cell) leaves
  | .nil => .nil
  | .cons h hRest => List.map_append ▸ .cons h.path hRest.path
  | .here h => .here h.path
end

/-! ## Bridges -/

/-- Let a tree without loops and blocks be normalized in any scope that has written what it reads,
and let no branch of a conditional end in an out-variable that the other branch changes too. On
every path through the normalized
tree the versions of a variable go up, so each is assigned once and holds what it was given, and a
bridge that copies a version stands behind whatever writes it: the version it assigns holds the
same at the end of the path. -/
theorem bridges_copy_behind_writes {root : Node} (hRoot : root.Everywhere false Node.IsFlat)
    (hKeeps : ∀ m, root.Comes m → m.KeepsOuts) {file : Option SourcePath}
    {st st' : NormalState} {moves : List Move} {o : Outcome} (hSound : st.scope.AllSound)
    (hRuns : Runs file (.transform root) st moves (.ok o st')) {V : Type} {σ : List (Assignment V)}
    {leaves : Bool} (hPerforms : o.node.Performs σ leaves) (store : Symbol × Nat → V) :
    Climbing (σ.map Assignment.cell) ∧
    (∀ c value, given c value ∈ σ → Assignment.runAll σ store c = value) ∧
    ∀ bridges, .bridged bridges ∈ moves → ∀ b ∈ bridges, ∀ version, b.source = some version →
      ∀ σ₁ σ₂, σ = σ₁ ++ copy b.cell (b.name, version) :: σ₂ →
        (b.name, version) ∉ σ₂.map Assignment.cell ∧
        Assignment.runAll σ store b.cell = Assignment.runAll σ store (b.name, version) := by
  obtain ⟨-, hCopies, hLies⟩ := Node.climbs_of_everywhere hRoot hKeeps _ _ _ _ _ hRuns
  obtain ⟨⟨hNodup, -⟩, hClimbing⟩ := hLies _ (fun _ => le_rfl) (layout_climbs.paths_nil _ _) _ _
    (pathAll_singleton_iff.mpr hPerforms.path)
  refine ⟨hClimbing, fun c value hGiven => Assignment.runAll_of_given hNodup hGiven,
    fun bridges hMoved b hb version hSource σ₁ σ₂ hEq => ?_⟩
  subst hEq
  have hOlder : version < b.target := hCopies hSound bridges hMoved b hb version hSource
  rw [List.map_append, List.map_cons] at hClimbing
  have hBehind : ∀ d ∈ σ₂.map Assignment.cell, b.name = d.1 → b.target < d.2 :=
    (List.pairwise_cons.mp (List.pairwise_append.mp hClimbing).2.1).1
  have hLast : (b.name, version) ∉ σ₂.map Assignment.cell := fun hMem =>
    (hBehind _ hMem rfl).not_gt hOlder
  refine ⟨hLast, Assignment.runAll_of_copy (fun hMem => lt_irrefl _ (hBehind _ hMem rfl)) ?_ hLast⟩
  exact fun hEq => hOlder.ne (congrArg Prod.snd hEq)

namespace Sample

def outVersion (x : Symbol) (version : Nat) : Node := .var .nowhere ⟨x, version, true⟩

def bridgeFrom (version : Nat) : Bridge := ⟨total, 2, some version⟩

/-- `if ask() then ask(out total) else total = 2 end` -/
def receiving : Node := .cond .nowhere .whenTrue (ask []) (some (ask [outVersion total 0]))
  (some (write total (.int .nowhere 2)))

/-- Both branches keep their value in a temporary while they copy `total` to its version 2. -/
def received : Node := .cond .nowhere .whenTrue (ask [])
  (some (.seq .nowhere [.assign .nowhere (.temp .nowhere ⟨14⟩) (ask [outVersion total 0]),
    writeVersion total 2 (versionOf total 0), .temp .nowhere ⟨14⟩]))
  (some (.seq .nowhere [
    .assign .nowhere (.temp .nowhere ⟨15⟩) (writeVersion total 1 (.int .nowhere 2)),
    writeVersion total 2 (versionOf total 1), .temp .nowhere ⟨15⟩]))

/-- The run is the only one, so each step of it is the one that fits. -/
theorem runs_receiving : ∃ moves o st', Runs none (.transform receiving) ⟨program, .empty⟩ moves
    (.ok o st') ∧ o.node = received ∧ .bridged [bridgeFrom 0, bridgeFrom 1] ∈ moves := by
  apply Exists.intro
  apply Exists.intro
  apply Exists.intro
  apply And.intro
  focus
    repeat first | apply Runs.pure | apply Runs.act | apply Runs.bind | apply Runs.transform
  refine ⟨rfl, ?_⟩
  repeat first | exact List.Mem.head _ | apply List.Mem.tail

theorem flat_receiving {body : Node} (hBody : body.Everywhere false Node.IsFlat) :
    (Node.cond .nowhere .whenTrue (ask []) (some body)
      (some (write total (.int .nowhere 2)))).Everywhere false Node.IsFlat := by
  have hGlue : ∀ n : Node, n.IsGlue → n.IsFlat := fun _ hk =>
    ⟨hk.isOwn, hk.isStraight, hk.hasTargets⟩
  have hWrite : (write total (.int .nowhere 2)).Everywhere false Node.IsFlat :=
    everywhere_write hGlue (fun target _ hVar =>
      ⟨by cases target <;> trivial, trivial, .inl hVar⟩) total 2
  exact Node.everywhere_of_parts hGlue trivial (List.forall_mem_cons.mpr
    ⟨Node.everywhere_of_parts hGlue trivial nofun,
      List.forall_mem_cons.mpr ⟨hBody, List.forall_mem_singleton.mpr hWrite⟩⟩)

theorem flat_outVersion (x : Symbol) (version : Nat) :
    (outVersion x version).Everywhere false Node.IsFlat :=
  Node.everywhere_of_parts (fun _ hk => ⟨hk.isOwn, hk.isStraight, hk.hasTargets⟩) trivial nofun

theorem flat_ask {arg : Node} (hArg : arg.Everywhere false Node.IsFlat) :
    (ask [arg]).Everywhere false Node.IsFlat :=
  Node.everywhere_of_parts (fun _ hk => ⟨hk.isOwn, hk.isStraight, hk.hasTargets⟩) trivial
    (List.forall_mem_singleton.mpr hArg)

theorem receiving_keepsOuts : ∀ m, receiving.Comes m → m.KeepsOuts := by
  have hComes : ∀ m, receiving.Comes m → m = receiving ∨ m ∈ [ask [], ask [outVersion total 0],
      outVersion total 0, write total (.int .nowhere 2), readVar total, .int .nowhere 2] := by
    intro m hm
    induction hm with
    | root => exact .inl rfl
    | part _ _ hPart ih =>
      refine .inr ?_
      simp only [List.mem_cons, List.not_mem_nil, or_false] at ih ⊢
      rcases ih with rfl | rfl | rfl | rfl | rfl | rfl | rfl <;>
        simp [receiving, ask, outVersion, write, readVar] at hPart ⊢ <;> tauto
    | means _ hMeans ih =>
      simp only [List.mem_cons, List.not_mem_nil, or_false] at ih
      rcases ih with rfl | rfl | rfl | rfl | rfl | rfl | rfl <;> cases hMeans
  intro m hm
  obtain rfl | hm := hComes m hm
  · refine fun x => ⟨fun h => Code.not_endsOut_of_gives (Code.gives_transform ?_) h.1,
      fun h => Code.not_endsOut_of_gives (Code.gives_transform ?_) h.1⟩
    · refine Code.gives_bind fun _ => Code.gives_bind fun _ => Code.gives_bind fun _ =>
        Code.gives_pure ?_
      rintro s v ⟨⟩
    · refine Code.gives_bind fun _ => Code.gives_bind fun _ => Code.gives_pure ?_
      rintro s v ⟨⟩
  · simp only [List.mem_cons, List.not_mem_nil, or_false] at hm
    rcases hm with rfl | rfl | rfl | rfl | rfl | rfl <;> trivial

theorem performs_ask : (ask []).Performs ([] : List (Assignment Atom)) false := .call .nil

theorem copies_total (target source : Nat) :
    (writeVersion total target (versionOf total source)).Performs
      ([copy (total, target) (total, source)] : List (Assignment Atom)) false := .copies _ _ rfl

theorem receiving_copied_behind : receiving.Everywhere false Node.IsFlat ∧
    (∀ m, receiving.Comes m → m.KeepsOuts) ∧ Scope.AllSound .empty ∧
    ∃ moves o st', Runs none (.transform receiving) ⟨program, .empty⟩ moves (.ok o st') ∧
      .bridged [bridgeFrom 0, bridgeFrom 1] ∈ moves ∧
      o.node.Performs [given (total, 0) (Atom.int 7), copy (total, 2) (total, 0)] false ∧
      Assignment.runAll [given (total, 0) (.int 7), copy (total, 2) (total, 0)]
        (fun _ => Atom.nil) (total, 2) = .int 7 := by
  have hFlat : receiving.Everywhere false Node.IsFlat :=
    flat_receiving (flat_ask (flat_outVersion total 0))
  have hSound : Scope.AllSound .empty := Scope.allSound_ofParams []
  obtain ⟨moves, o, st', hRuns, hNode, hMoved⟩ := runs_receiving
  have hPerforms : received.Performs [given (total, 0) (Atom.int 7), copy (total, 2) (total, 0)]
      false := by
    have hAsk : (ask [outVersion total 0]).Performs [given (total, 0) (Atom.int 7)] false :=
      .call (.cons (.write _ _ rfl _) .nil)
    have hSaved : (Node.assign .nowhere (.temp .nowhere ⟨14⟩) (ask [outVersion total 0])).Performs
        [given (total, 0) (Atom.int 7)] false :=
      .assign (.inl rfl) (.cons hAsk (.cons (.atom _ _) .nil))
    have hBranch : PerformsAll (some (Node.seq .nowhere _)).toList _ false :=
      .cons (.seq (.cons hSaved (.cons (copies_total 2 0)
        (.cons (.atom .nowhere (.temp ⟨14⟩)) .nil)))) .nil
    exact .onTrue performs_ask hBranch
  rw [← hNode] at hPerforms
  obtain ⟨-, hGiven, hCopied⟩ := bridges_copy_behind_writes hFlat receiving_keepsOuts hSound hRuns
    hPerforms fun _ => Atom.nil
  obtain ⟨-, hSame⟩ := hCopied _ hMoved (bridgeFrom 0) (.head _) 0 rfl [_] [] rfl
  exact ⟨hFlat, receiving_keepsOuts, hSound, moves, o, st', hRuns, hMoved, hPerforms,
    hSame.trans (hGiven (total, 0) _ (.head _))⟩

/-- `if ask() then out total else total = 2 end` -/
def ending : Node := .cond .nowhere .whenTrue (ask []) (some (outVersion total 0))
  (some (write total (.int .nowhere 2)))

/-- The version 0 of `total` is copied to its version 2 first, and received after. -/
def ended : Node := .cond .nowhere .whenTrue (ask [])
  (some (.seq .nowhere [writeVersion total 2 (versionOf total 0), outVersion total 0]))
  (some (.seq .nowhere [
    .assign .nowhere (.temp .nowhere ⟨14⟩) (writeVersion total 1 (.int .nowhere 2)),
    writeVersion total 2 (versionOf total 1), .temp .nowhere ⟨14⟩]))

theorem runs_ending : ∃ moves o st', Runs none (.transform ending) ⟨program, .empty⟩ moves
    (.ok o st') ∧ o.node = ended ∧ .bridged [bridgeFrom 0, bridgeFrom 1] ∈ moves := by
  apply Exists.intro
  apply Exists.intro
  apply Exists.intro
  apply And.intro
  focus
    repeat first | apply Runs.pure | apply Runs.act | apply Runs.bind | apply Runs.transform
  refine ⟨rfl, ?_⟩
  repeat first | exact List.Mem.head _ | apply List.Mem.tail

/-- Where the other branch assigns the variable too, an out-variable at the end of a branch is
received behind the bridge, and the merged version does not hold it. -/
theorem ending_copied_before : ending.Everywhere false Node.IsFlat ∧ Scope.AllSound .empty ∧
    ∃ moves o st' σ₁ σ₂, Runs none (.transform ending) ⟨program, .empty⟩ moves (.ok o st') ∧
      .bridged [bridgeFrom 0, bridgeFrom 1] ∈ moves ∧
      o.node.Performs (σ₁ ++ copy (bridgeFrom 0).cell (total, 0) :: σ₂) false ∧
      given (total, 0) (Atom.int 7) ∈ σ₂ ∧
      Assignment.runAll (σ₁ ++ copy (bridgeFrom 0).cell (total, 0) :: σ₂) (fun _ => Atom.nil)
        (bridgeFrom 0).cell ≠ .int 7 := by
  obtain ⟨moves, o, st', hRuns, hNode, hMoved⟩ := runs_ending
  refine ⟨flat_receiving (flat_outVersion total 0), Scope.allSound_ofParams [], moves, o, st', [],
    [given (total, 0) (.int 7)], hRuns, hMoved, ?_, .head _, by decide⟩
  rw [hNode]
  have hOut : (outVersion total 0).Performs [given (total, 0) (Atom.int 7)] false :=
    .write _ _ rfl _
  have hBranch : PerformsAll (some (Node.seq .nowhere _)).toList _ false :=
    .cons (.seq (.cons (copies_total 2 0) (.cons hOut .nil))) .nil
  exact .onTrue performs_ask hBranch

end Sample

end CoreTree
