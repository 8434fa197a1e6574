import CoreTree.Proofs.Assignment.Paths
import CoreTree.Proofs.Assignment.Targets

/-! # Paths of straight code

Where a scope has no loop and no block, every path through a normalized tree assigns versions that
lie between the scope at its start and the scope at its end. So the paths through parts that are
evaluated in turn do not interfere. What else is kept of a path is left open, as a layout: whatever
goes on from one part to the next, and from a branch to the bridges behind it. That each version is
assigned once is one layout.
-/
namespace CoreTree
set_option autoImplicit false

/-- What may be kept of the versions that a path assigns between two next ones. -/
structure Layout (F : (Symbol → Nat) → (Symbol → Nat) → List (Symbol × Nat) → Prop) : Prop where
  nil : ∀ low high, F low high []
  single : ∀ {low high x version}, low x ≤ version → version < high x → F low high [(x, version)]
  widen : ∀ {low high low' high' cells}, F low high cells → (∀ x, low' x ≤ low x) →
    (∀ x, high x ≤ high' x) → F low' high' cells
  append : ∀ {low mid high cells cells'}, F low mid cells → F mid high cells' →
    (∀ x, low x ≤ mid x) → (∀ x, mid x ≤ high x) → F low high (cells ++ cells')
  topped : ∀ {start ended low high cells bridges}, F start ended cells →
    Tops start ended low high bridges → (∀ x, low x ≤ start x) → (∀ x, ended x ≤ high x) →
    F low high (cells ++ bridges.map Bridge.cell)

theorem layout_fits : Layout Fits where
  nil := fits_nil
  single hLow hHigh := ⟨List.nodup_singleton _, List.forall_mem_singleton.mpr ⟨hLow, hHigh⟩⟩
  widen := Fits.widen
  append := Fits.append
  topped := Fits.topped

/-- Every bridge that was put in copies a version older than the one it writes. -/
def Move.CopyUp (moves : List Move) : Prop :=
  ∀ bridges, .bridged bridges ∈ moves → ∀ b ∈ bridges, ∀ version, b.source = some version →
    version < b.target

namespace Move

variable {moves moves' : List Move}

theorem copyUp_append (h : CopyUp moves) (h' : CopyUp moves') : CopyUp (moves ++ moves') :=
  fun bridges hMem => (List.mem_append.mp hMem).elim (h bridges) (h' bridges)

/-- Nothing was bridged. -/
def Plain : Move → Prop
  | .bridged _ => False
  | _ => True

theorem copyUp_of_plain (h : ∀ m ∈ moves, m.Plain) : CopyUp moves := fun _ hMem =>
  (h _ hMem).elim

end Move

open Move

variable {F : (Symbol → Nat) → (Symbol → Nat) → List (Symbol × Nat) → Prop}

/-- Every path through the trees is laid out so. -/
def PathsLie (F : (Symbol → Nat) → (Symbol → Nat) → List (Symbol × Nat) → Prop)
    (low high : Symbol → Nat) (ns : List Node) : Prop :=
  ∀ π leaves, PathAll ns π leaves → F low high π

theorem Layout.paths_nil (hF : Layout F) (low high : Symbol → Nat) : PathsLie F low high [] := by
  intro π leaves h
  obtain ⟨rfl, -⟩ := pathAll_nil_iff.mp h
  exact hF.nil _ _

theorem Layout.paths_append (hF : Layout F) {low mid high : Symbol → Nat} {ns ms : List Node}
    (h : PathsLie F low mid ns) (h' : PathsLie F mid high ms) (hLow : ∀ x, low x ≤ mid x)
    (hHigh : ∀ x, mid x ≤ high x) : PathsLie F low high (ns ++ ms) := by
  intro π leaves hPath
  obtain ⟨hPath, -⟩ | ⟨π₁, π₂, hFirst, hSecond, rfl⟩ := pathAll_append_iff.mp hPath
  · exact hF.widen (h _ _ hPath) (fun _ => le_rfl) hHigh
  · exact hF.append (h _ _ hFirst) (h' _ _ hSecond) hLow hHigh

namespace Code

variable {α β : Type}

/-! ## Steps -/

/-- The code renews, its bridges copy upwards, and if the paths through `prior` are laid out so far,
those through what the code results in are afterwards. -/
def Lays (F : (Symbol → Nat) → (Symbol → Nat) → List (Symbol × Nat) → Prop) (c : Code α)
    (prior : List Node) (view : α → List Node) : Prop :=
  ∀ file st moves a st', Runs file c st moves (.ok a st') → st.scope.Renews st'.scope ∧
    (st.scope.AllSound → CopyUp moves) ∧
    ∀ low : Symbol → Nat, (∀ x, low x ≤ st.scope.next x) → PathsLie F low st.scope.next prior →
      PathsLie F low st'.scope.next (view a)

/-- The paths of what the tree becomes are laid out so. -/
abbrev LaidOut (F : (Symbol → Nat) → (Symbol → Nat) → List (Symbol × Nat) → Prop) (n : Node) :
    Prop :=
  (transform n).Lays F [] fun o => [o.node]

theorem lays_pure {prior : List Node} {view : α → List Node} {a : α}
    (h : ∀ π leaves, PathAll (view a) π leaves → ∃ l, PathAll prior π l) :
    (Pure.pure a : Code α).Lays F prior view := by
  intro file st moves b st' hRuns
  obtain ⟨rfl, rfl, rfl⟩ := hRuns.of_pure
  refine ⟨.refl _, fun _ => copyUp_of_plain nofun, fun low _ hPrior π leaves hPath => ?_⟩
  obtain ⟨l, hPath⟩ := h π leaves hPath
  exact hPrior π l hPath

section

variable (hF : Layout F)
include hF

theorem Lays.bind {prior : List Node} {v : α → List Node} {view : β → List Node} {c : Code α}
    {f : α → Code β} (h : c.Lays F [] v) (hNext : ∀ a, (f a).Lays F (prior ++ v a) view) :
    (c >>= f).Lays F prior view := by
  intro file st moves b st' hRuns
  obtain ⟨a, mid, _, _, hFirst, hRest, rfl⟩ := hRuns.of_bind
  obtain ⟨hMid, hCopies, hView⟩ := h _ _ _ _ _ hFirst
  obtain ⟨hEnd, hCopies', hRest⟩ := hNext a _ _ _ _ _ hRest
  refine ⟨hMid.trans hEnd, fun hSound => ?_, fun low hLow hPrior => hRest low (fun x => ?_) ?_⟩
  · exact copyUp_append (hCopies hSound) (hCopies' (hMid.allSound hSound))
  · exact (hLow x).trans (hMid.next_le x)
  · exact hF.paths_append hPrior (hView _ (fun _ => le_rfl) (hF.paths_nil _ _)) hLow hMid.next_le

/-- A result without paths that assign. -/
theorem lays_quiet {c : Code α} {view : α → List Node}
    (h : ∀ file st moves a st', Runs file c st moves (.ok a st') → st'.scope = st.scope ∧
      (∀ m ∈ moves, m.Plain) ∧ ∀ n ∈ view a, n.Quiet) : c.Lays F [] view := by
  intro file st moves a st' hRuns
  obtain ⟨hScope, hPlain, hQuiet⟩ := h _ _ _ _ _ hRuns
  rw [hScope]
  refine ⟨.refl _, fun _ => copyUp_of_plain hPlain, fun low _ _ π leaves hPath => ?_⟩
  obtain ⟨rfl, -⟩ := pathAll_of_quiet hQuiet hPath
  exact hF.nil _ _

theorem lays_allocate (act : Norm α) (hAct : act.Allocating) :
    (Code.act (.allocate act hAct)).Lays F [] fun _ => [] := by
  refine lays_quiet hF fun file st moves a st' hRuns => ?_
  obtain ⟨rfl, -, hScope⟩ := hRuns.of_allocate
  exact ⟨hScope, nofun, nofun⟩

theorem lays_optionApart (params : List Symbol) (n : Option Node) :
    (optionApart params n).Lays F [] fun _ => [] := by
  refine lays_quiet hF fun file st moves m st' hRuns => ?_
  cases n with
  | none =>
    obtain ⟨rfl, -, rfl⟩ := hRuns.of_pure
    exact ⟨rfl, nofun, nofun⟩
  | some n =>
    obtain ⟨_, _, _, _, hApart, hRest, rfl⟩ := hRuns.of_bind
    obtain ⟨_, _, _, _, rfl, _, rfl⟩ := hApart.of_apart
    obtain ⟨rfl, -, rfl⟩ := hRest.of_pure
    exact ⟨rfl, by simp [Plain], nofun⟩

/-- A write assigns the next version. -/
theorem lays_write (s : Span) (v : Var) :
    (Code.act (.write v)).Lays F [] fun w => [.var s { w with out := true }] := by
  intro file st moves w st' hRuns
  obtain ⟨rfl, rfl, rfl⟩ := hRuns.of_write
  refine ⟨Scope.renews_write st.scope v.name, fun _ => copyUp_of_plain (by simp [Plain]),
    fun low hLow _ π leaves hPath => ?_⟩
  cases pathAll_singleton_iff.mp hPath with
  | read _ _ hOut => cases hOut
  | write =>
    apply hF.single
    · rw [Scope.fst_write]
      exact hLow _
    · show (st.scope.write v.name).1 < (st.scope.write v.name).2.next v.name
      rw [Scope.fst_write, Scope.next_write, if_pos rfl]
      exact Nat.lt_succ_self _

theorem lays_useVar (s : Span) (v : Var) : (useVar s v).Lays F [] fun w => [.var s w] := by
  unfold useVar
  split
  · rename_i hOut
    intro file st moves w st' hRuns
    obtain ⟨hRenews, hCopies, hLies⟩ := lays_write hF s v _ _ _ _ _ hRuns
    refine ⟨hRenews, hCopies, ?_⟩
    obtain ⟨-, rfl, -⟩ := hRuns.of_write
    rwa [hOut] at *
  · rename_i hOut
    refine lays_quiet hF fun file st moves w st' hRuns => ?_
    obtain ⟨rfl, -, hSame, rfl⟩ := hRuns.of_read
    refine ⟨rfl, nofun, List.forall_mem_singleton.mpr fun π leaves hPath => ?_⟩
    cases hPath with
    | read => exact ⟨rfl, rfl⟩
    | write _ _ h =>
      rw [hSame] at h
      exact absurd h hOut

/-! ## Parts in order -/

theorem lays_node {n : Node} (h : LaidOut F n) : (node n).Lays F [] fun m => [m] :=
  h.bind hF fun _ => lays_pure fun _ leaves hPath => ⟨leaves, hPath⟩

theorem lays_optionNode {n : Option Node} (h : ∀ m, n = some m → LaidOut F m) :
    (optionNode n).Lays F [] Option.toList := by
  cases n with
  | none => exact lays_pure fun _ leaves hPath => ⟨leaves, hPath⟩
  | some n =>
    exact (lays_node hF (h n rfl)).bind hF fun _ => lays_pure fun _ leaves hPath => ⟨leaves, hPath⟩

theorem lays_nodes {ns : List Node} (h : ∀ n ∈ ns, LaidOut F n) :
    (nodes ns).Lays F [] id := by
  induction ns with
  | nil => exact lays_pure fun _ leaves hPath => ⟨leaves, hPath⟩
  | cons n ns ih =>
    obtain ⟨hHead, hRest⟩ := List.forall_mem_cons.mp h
    exact (lays_node hF hHead).bind hF fun _ => (ih hRest).bind hF fun _ =>
      lays_pure fun _ leaves hPath => ⟨leaves, hPath⟩

theorem lays_target {n : Node} (h : LaidOut F n) (hTarget : n.IsTarget) :
    (target n).Lays F [] fun m => [m.asTarget] := by
  by_cases hVar : n.isVar = true
  · cases n with
    | var s v =>
      exact (lays_write hF s v).bind hF fun _ => lays_pure fun _ leaves hPath => ⟨leaves, hPath⟩
    | _ => cases hVar
  · have hGives := hTarget.resolve_left hVar
    have hNode : target n = node n := by
      cases n with
      | var => exact absurd rfl hVar
      | _ => rfl
    rw [hNode]
    intro file st moves m st' hRuns
    obtain ⟨o, _, _, _, hFirst, hRest, rfl⟩ := hRuns.of_bind
    have hResult : o.node.plainVar? = none := hGives _ _ _ _ _ hFirst
    obtain ⟨rfl, rfl, rfl⟩ := hRest.of_pure
    have hSame : o.node.asTarget = o.node := by
      generalize o.node = m at hResult
      cases m with
      | var s v =>
        obtain ⟨name, version, _ | _⟩ := v
        · cases hResult
        · rfl
      | _ => rfl
    show _ ∧ _ ∧ ∀ low : Symbol → Nat, _ → _ → PathsLie F low st'.scope.next [o.node.asTarget]
    rw [hSame, List.append_nil]
    exact h _ _ _ _ _ hFirst

theorem lays_targets {ns : List Node} (h : ∀ n ∈ ns, LaidOut F n)
    (hTargets : ∀ n ∈ ns, n.IsTarget) :
    (targets ns).Lays F [] fun ms => ms.map Node.asTarget := by
  induction ns with
  | nil => exact lays_pure fun _ leaves hPath => ⟨leaves, hPath⟩
  | cons n ns ih =>
    obtain ⟨hHead, hRest⟩ := List.forall_mem_cons.mp h
    obtain ⟨hTarget, hTargets⟩ := List.forall_mem_cons.mp hTargets
    exact (lays_target hF hHead hTarget).bind hF fun _ => (ih hRest hTargets).bind hF fun _ =>
      lays_pure fun _ leaves hPath => ⟨leaves, hPath⟩

theorem lays_statements {ns : List Node} (h : ∀ n ∈ ns, LaidOut F n) :
    (statements ns).Lays F [] Prod.fst := by
  induction ns with
  | nil => exact lays_pure fun _ leaves hPath => ⟨leaves, hPath⟩
  | cons n ns ih =>
    obtain ⟨hHead, hRest⟩ := List.forall_mem_cons.mp h
    refine hHead.bind hF fun o => ?_
    split
    · exact lays_pure fun _ leaves hPath =>
        ⟨leaves, pathAll_singleton_iff.mpr (pathAll_statements_iff.mp hPath)⟩
    · refine (ih hRest).bind hF fun r => lays_pure fun _ leaves hPath => ⟨leaves, ?_⟩
      show PathAll ([o.node] ++ r.1) _ _
      have hPath : PathAll (o.node.statements ++ r.1) _ leaves := hPath
      simp only [pathAll_append_iff, pathAll_statements_iff, pathAll_singleton_iff] at hPath ⊢
      exact hPath

theorem lays_entryNodes {es : List (HashEntry Node)}
    (h : ∀ e ∈ es, LaidOut F e.key ∧ LaidOut F e.value) :
    (entryNodes es).Lays F [] fun es => es.flatMap fun e => [e.key, e.value] := by
  induction es with
  | nil => exact lays_pure fun _ leaves hPath => ⟨leaves, hPath⟩
  | cons e es ih =>
    obtain ⟨⟨hKey, hValue⟩, hRest⟩ := List.forall_mem_cons.mp h
    exact (lays_node hF hKey).bind hF fun _ => (lays_node hF hValue).bind hF fun _ =>
      (ih hRest).bind hF fun _ => lays_pure fun _ leaves hPath => ⟨leaves, hPath⟩

theorem lays_unfolded {saves : Bool} {meaning : Symbol → Node}
    (h : ∀ t, LaidOut F (meaning t)) : (unfolded saves meaning).Lays F [] fun o => [o.node] := by
  unfold unfolded
  split
  · exact (lays_allocate hF _ _).bind hF h
  · exact h _

/-! ## Branches -/

omit hF in
/-- In some run of the branch, the variable is not known at the end as it was at the start. -/
def Changes (x : Symbol) (n : Option Node) : Prop :=
  ∃ file start st moves e st', Runs.RanBranch file start n st moves e st' ∧
    ((e.map (·.scope)).getD start).get? x ≠ start.get? x

omit hF in
/-- A branch that ran and was closed with bridges is laid out between the scopes around it, if it is
between its own. Only what the other branch changes is bridged. -/
def Closes (F : (Symbol → Nat) → (Symbol → Nat) → List (Symbol × Nat) → Prop)
    (n other : Option Node) : Prop :=
  ∀ file start st moves e st', Runs.RanBranch file start n st moves e st' →
    ∀ s bridges before closed after,
      (BranchEnd.close s e bridges).run before = .ok closed after →
      (∀ b ∈ bridges, Changes b.name other) →
      PathsLie F start.next ((e.map (·.scope)).getD start).next
        (branchStatements (e.bind (·.node))) →
      ∀ low high, Tops start.next ((e.map (·.scope)).getD start).next low high bridges →
        (∀ x, low x ≤ start.next x) → (∀ x, ((e.map (·.scope)).getD start).next x ≤ high x) →
        PathsLie F low high closed.toList

theorem lies_of_ranBranch {file : Option SourcePath} {start : Scope} {n : Option Node}
    {st st' : NormalState} {moves : List Move} {e : Option BranchEnd}
    (h : Runs.RanBranch file start n st moves e st') (hLaid : ∀ m, n = some m → LaidOut F m) :
    (∀ t, e.map (·.scope) = some t → start.Renews t) ∧ (start.AllSound → CopyUp moves) ∧
      PathsLie F start.next ((e.map (·.scope)).getD start).next
        (branchStatements (e.bind (·.node))) := by
  cases n with
  | none =>
    obtain ⟨rfl, rfl, -⟩ := h
    exact ⟨nofun, fun _ => copyUp_of_plain nofun, hF.paths_nil _ _⟩
  | some n =>
    obtain ⟨o, inner, hRuns, rfl, rfl⟩ := h
    obtain ⟨hRenews, hCopies, hLies⟩ := hLaid n rfl _ _ _ _ _ hRuns
    refine ⟨fun t ht => ?_, fun hSound => ?_, fun π leaves hPath => ?_⟩
    · obtain rfl := Option.some.inj ht
      exact hRenews
    · rw [← List.singleton_append]
      exact copyUp_append (copyUp_of_plain (by simp [Plain])) (hCopies hSound)
    · refine hLies _ (fun _ => le_rfl) (hF.paths_nil _ _) π leaves (pathAll_singleton_iff.mpr ?_)
      exact pathAll_toOption_iff.mp (pathAll_branchStatements_iff.mp hPath)

theorem lays_ifElse (s : Span) {test : Node} {onTrue onFalse : Option Node}
    (hTest : LaidOut F test) (hTrue : ∀ m, onTrue = some m → LaidOut F m)
    (hFalse : ∀ m, onFalse = some m → LaidOut F m) (hCloseTrue : Closes F onTrue onFalse)
    (hCloseFalse : Closes F onFalse onTrue) :
    (ifElse s test onTrue onFalse).Lays F [] fun o => [o.node] := by
  intro file st moves o st' hRuns
  obtain ⟨testNode, before, _, _, thenEnd, elseEnd, elseStart, join, hTestRuns, hRan, rfl⟩ :=
    hRuns.of_ifElse
  obtain ⟨hBefore, hTestCopies, hTestLies⟩ := lays_node hF hTest _ _ _ _ _ hTestRuns
  obtain ⟨mid, last, _, _, hThen, hElse, rfl⟩ := hRan.branches
  obtain ⟨hThenRenews, hThenCopies, hThenLies⟩ := lies_of_ranBranch hF hThen hTrue
  obtain ⟨hElseRenews, hElseCopies, hElseLies⟩ := lies_of_ranBranch hF hElse hFalse
  have hBranches : Scope.BranchesRenew before.scope (thenEnd.map (·.scope)) elseStart
      (elseEnd.map (·.scope)) := by
    refine ⟨hThenRenews, ?_, hElseRenews⟩
    rw [hRan.starts]
    cases thenEnd <;> rfl
  have hRenews := hBranches.renews
  have hThenTops := hBranches.then_tops
  have hElseTops := hBranches.else_tops
  have hThenEnd := fun x => (hBranches.next_le_join x).1
  have hElseBetween := hBranches.else_between
  have hCopies : before.scope.AllSound → CopyUp [.bridged (join.thenBridges ++ join.elseBridges),
      .reached join.scope] := by
    intro hSound bridges hMem b hb version hSource
    obtain rfl : bridges = join.thenBridges ++ join.elseBridges := by simpa using hMem
    rw [hRan.joins] at hb
    exact hBranches.source_lt_target hSound hb hSource
  have hThenChanges : ∀ b ∈ join.thenBridges, Changes b.name onFalse := fun b hb =>
    ⟨_, _, _, _, _, _, hElse, Scope.wrote_of_mem_thenBridges (hRan.joins ▸ hb)⟩
  have hElseChanges : ∀ b ∈ join.elseBridges, Changes b.name onTrue := fun b hb =>
    ⟨_, _, _, _, _, _, hThen, Scope.wrote_of_mem_elseBridges (hRan.joins ▸ hb)⟩
  simp only [← hRan.joins, ← hRan.scope] at hRenews hThenTops hElseTops hThenEnd hElseBetween
  refine ⟨hBefore.trans hRenews, fun hSound => ?_, fun low hLow _ π leaves hPath => ?_⟩
  · have hSound' := hBefore.allSound hSound
    refine copyUp_append (hTestCopies hSound) (copyUp_append (copyUp_append (hThenCopies hSound')
      (hElseCopies ?_)) (hCopies hSound'))
    exact hBranches.elseSound hSound'
  · have hTestLies : PathsLie F low before.scope.next [testNode] :=
      hTestLies low hLow (hF.paths_nil _ _)
    have hLow : ∀ x, low x ≤ before.scope.next x := fun x => (hLow x).trans (hBefore.next_le x)
    obtain ⟨thenNode, elseNode, _, _, hThenClose, hElseClose, rfl⟩ := hRan.outcome
    have hThenClosed : PathsLie F before.scope.next st'.scope.next thenNode.toList :=
      hCloseTrue _ _ _ _ _ _ hThen _ _ _ _ _ hThenClose hThenChanges hThenLies _ _
        hThenTops (fun _ => le_rfl) hThenEnd
    have hElseClosed : PathsLie F before.scope.next st'.scope.next elseNode.toList :=
      hCloseFalse _ _ _ _ _ _ hElse _ _ _ _ _ hElseClose hElseChanges hElseLies _ _
        hElseTops (fun x => (hElseBetween x).1) fun x => (hElseBetween x).2
    cases pathAll_singleton_iff.mp hPath with
    | inTest h =>
      exact hF.widen (hTestLies _ _ (pathAll_singleton_iff.mpr h)) (fun _ => le_rfl)
        hRenews.next_le
    | onTrue h hBody =>
      exact hF.append (hTestLies _ _ (pathAll_singleton_iff.mpr h)) (hThenClosed _ _ hBody) hLow
        hRenews.next_le
    | onFalse h hBody =>
      exact hF.append (hTestLies _ _ (pathAll_singleton_iff.mpr h)) (hElseClosed _ _ hBody) hLow
        hRenews.next_le

end

/-- For what is assigned at all it does not matter where the bridges stand. -/
theorem closes_fits (n other : Option Node) : Closes Fits n other := by
  intro file start st moves e st' _ s bridges before closed after hClose _ hLies low high hTops
    hStart hEnded π leaves hPath
  obtain ⟨l, h⟩ | ⟨π₁, l, h, hPerm⟩ := bridged_of_close hClose hPath
  · exact (hLies π l (pathAll_branchStatements_iff.mpr h)).widen hStart hEnded
  · exact ((hLies π₁ l (pathAll_branchStatements_iff.mpr h)).topped hTops hStart hEnded).perm hPerm

end Code

/-! ## Every straight tree -/

/-- No loop, and no call with a block. -/
def Node.IsStraight : Node → Prop
  | .loop .. | .call _ _ _ _ (some _) => False
  | _ => True

theorem Node.IsGlue.isStraight {n : Node} (h : n.IsGlue) : n.IsStraight := by
  cases n with
  | loop => exact h.elim
  | call s receiver name args block =>
    cases block with
    | none => trivial
    | some b => exact h.elim
  | _ => trivial

namespace Node

open Code

variable {π : List (Symbol × Nat)} {leaves : Bool}

theorem path_of_interp {s s' : Span} {pieces : List Node}
    (h : (Node.send s (pieces.foldl (fun acc piece => .send s acc .append [piece])
      (.send s (.globalConst s' .stringBuilder) .newName [])) .toS []).Path π leaves) :
    PathAll pieces π leaves := by
  have h := path_foldl_send (pathAll_singleton_iff.mp (path_send_iff.mp h))
  refine pathAll_of_quiet_left [_] (List.forall_mem_singleton.mpr ?_) h
  exact quiet_send s _ (quiet_atom _ _) nofun

theorem path_of_range {s s' : Span} {first last : Node} {exclusive : Bool}
    (h : (Node.send s (.globalConst s' .range) .newName
      [first, last, .bool s exclusive]).Path π leaves) : PathAll [first, last] π leaves :=
  pathAll_of_quiet_right [.bool s exclusive]
    (List.forall_mem_singleton.mpr (quiet_atom _ _))
    (pathAll_of_quiet_left [.globalConst s' .range]
      (List.forall_mem_singleton.mpr (quiet_atom _ _)) (path_send_iff.mp h))

/-- The branches of a conditional are laid out when they are closed. -/
def BranchesClose (F : (Symbol → Nat) → (Symbol → Nat) → List (Symbol × Nat) → Prop) :
    Node → Prop
  | .cond _ _ _ body other => Closes F body other ∧ Closes F other body
  | _ => True

theorem lays_code (hF : Layout F) {n : Node} (hOwn : n.IsOwn) (hStraight : n.IsStraight)
    (hTargets : n.HasTargets) (hClose : n.BranchesClose F)
    (hParts : n.isDefine = false → ∀ m ∈ n.parts, LaidOut F m)
    (hMeans : ∀ m, n.Means m → LaidOut F m) : n.code.Lays F [] fun o => [o.node] := by
  have hQuiet : ∀ {m : Node} {prior : List Node}, m.Quiet → prior = [] → ∀ π leaves,
      PathAll [m] π leaves → ∃ l, PathAll prior π l := by
    rintro m _ hQuiet rfl π leaves hPath
    obtain ⟨rfl, -⟩ := hQuiet _ _ (pathAll_singleton_iff.mp hPath)
    exact ⟨false, .nil⟩
  cases n with
  | require => exact hOwn.elim
  | loop => exact hStraight.elim
  | atom s a => exact lays_pure (hQuiet (quiet_atom s a) rfl)
  | var s v =>
    exact (lays_useVar hF s v).bind hF fun _ => lays_pure fun _ leaves hPath => ⟨leaves, hPath⟩
  | regex s text =>
    exact (lays_allocate hF _ _).bind hF fun _ => lays_pure (hQuiet (quiet_atom _ _) rfl)
  | seq s stmts =>
    refine (lays_statements hF (hParts rfl)).bind hF fun _ =>
      lays_pure fun _ leaves hPath => ⟨leaves, ?_⟩
    exact path_ofStatements_iff.mp (pathAll_singleton_iff.mp hPath)
  | cond s form test body other =>
    have hTest := hParts rfl test (by simp)
    have hBody : ∀ m, body = some m → LaidOut F m := fun m hm => hParts rfl m (by simp [hm])
    have hOther : ∀ m, other = some m → LaidOut F m := fun m hm => hParts rfl m (by simp [hm])
    cases form with
    | whenTrue => exact lays_ifElse hF s hTest hBody hOther hClose.1 hClose.2
    | whenFalse => exact lays_ifElse hF s hTest hOther hBody hClose.2 hClose.1
  | choose s subject whens other => exact lays_unfolded hF fun t => hMeans _ (.choose t)
  | logic s op left right => exact lays_unfolded hF fun t => hMeans _ (.logic t)
  | jump s kind value =>
    refine (lays_optionNode hF fun m hm => hParts rfl m (by simp [hm])).bind hF fun _ =>
      lays_pure fun _ leaves hPath => ?_
    cases pathAll_singleton_iff.mp hPath with
    | jump h => exact ⟨_, h⟩
  | assign s target value =>
    have hTarget := hParts rfl target (by simp)
    have hValue := hParts rfl value (by simp)
    show (Code.assign s target value).Lays F [] _
    unfold Code.assign
    split
    · exact hOwn.elim
    · refine (lays_node hF hValue).bind hF fun _ =>
        (lays_target hF hTarget hTargets).bind hF fun _ =>
          lays_pure fun _ leaves hPath => ⟨leaves, ?_⟩
      cases pathAll_singleton_iff.mp hPath with
      | assign h => exact h
  | multi s lefts values =>
    have hLefts : ∀ m ∈ lefts, LaidOut F m := fun m hm => hParts rfl m (by simp [hm])
    refine (lays_nodes hF fun m hm => hParts rfl m (by simp [hm])).bind hF fun _ =>
      (lays_targets hF hLefts hTargets).bind hF fun _ =>
        lays_pure fun _ leaves hPath => ⟨leaves, ?_⟩
    cases pathAll_singleton_iff.mp hPath with
    | multi h => exact h
  | call s receiver name args block =>
    cases block with
    | some b => exact hStraight.elim
    | none =>
      have hReceiver : (optionNode receiver).Lays F [] Option.toList :=
        lays_optionNode hF fun m hm => hParts rfl m (by simp [hm])
      have hBlock : (optionBlock s none).Lays F [] fun _ => [] :=
        lays_pure fun _ leaves hPath => ⟨leaves, hPath⟩
      refine hReceiver.bind hF fun _ => (lays_nodes hF fun m hm =>
        hParts rfl m (by simp [hm])).bind hF fun _ => hBlock.bind hF fun _ =>
          lays_pure fun _ leaves hPath => ⟨leaves, ?_⟩
      cases pathAll_singleton_iff.mp hPath with
      | call h => simpa using h
  | isA s subject type =>
    refine (lays_node hF (hParts rfl subject (by simp))).bind hF fun _ =>
      lays_pure fun _ leaves hPath => ⟨leaves, ?_⟩
    cases pathAll_singleton_iff.mp hPath with
    | isA h => exact pathAll_singleton_iff.mpr h
  | define s kind name params body =>
    show (Code.define s kind name params body).Lays F [] _
    unfold Code.define
    split
    · rename_i hDefault
      exact hMeans _ (.define hDefault)
    · refine (lays_optionApart hF _ _).bind hF fun _ => lays_pure (hQuiet ?_ rfl)
      rintro π leaves ⟨⟩
      exact ⟨rfl, rfl⟩
  | interp s pieces =>
    exact (lays_nodes hF (hParts rfl)).bind hF fun _ =>
      lays_pure fun _ leaves hPath => ⟨leaves, path_of_interp (pathAll_singleton_iff.mp hPath)⟩
  | range s first last exclusive =>
    exact (lays_node hF (hParts rfl first (by simp))).bind hF fun _ =>
      (lays_node hF (hParts rfl last (by simp))).bind hF fun _ => lays_pure fun _ leaves hPath =>
        ⟨leaves, path_of_range (pathAll_singleton_iff.mp hPath)⟩
  | array s elements type =>
    refine (lays_nodes hF (hParts rfl)).bind hF fun ms =>
      (lays_allocate hF _ _).bind hF fun id => ?_
    split
    · rename_i hEmpty
      have hNil : ms = [] := by simpa using (Bool.and_eq_true_iff.mp hEmpty).2
      refine lays_pure (hQuiet (quiet_send s _ (quiet_atom _ _) ?_) (by simp [hNil]))
      exact List.forall_mem_singleton.mpr (quiet_atom _ _)
    · refine (lays_allocate hF _ _).bind hF fun _ => lays_pure fun _ leaves hPath => ⟨leaves, ?_⟩
      simpa using pathAll_of_arrayStatements (quiet_atom _ _)
        (path_seq_iff.mp (pathAll_singleton_iff.mp hPath))
  | hash s entries types =>
    have hEntries : ∀ e ∈ entries, LaidOut F e.key ∧ LaidOut F e.value := by
      intro e he
      have hEntry : ∀ m, m = e.key ∨ m = e.value → LaidOut F m := fun m hm => hParts rfl m (by
        simp only [parts, List.mem_flatMap]
        exact ⟨e, he, by simpa using hm⟩)
      exact ⟨hEntry _ (.inl rfl), hEntry _ (.inr rfl)⟩
    refine (lays_entryNodes hF hEntries).bind hF fun es =>
      (lays_allocate hF _ _).bind hF fun _ => ?_
    split
    · rename_i hEmpty
      have hNil : es = [] := List.isEmpty_iff.mp hEmpty
      exact lays_pure (hQuiet (quiet_send s _ (quiet_atom _ _) (List.forall_mem_nil _))
        (by simp [hNil]))
    · refine (lays_allocate hF _ _).bind hF fun _ => lays_pure fun _ leaves hPath => ⟨leaves, ?_⟩
      simpa using pathAll_of_hashStatements
        (quiet_send _ _ (quiet_atom _ _) (List.forall_mem_nil _))
        (path_seq_iff.mp (pathAll_singleton_iff.mp hPath))

/-- A tree that normalizing the root comes to in the same scope: a part, or what sugar means. -/
inductive Comes (root : Node) : Node → Prop where
  | root : root.Comes root
  | part {n m : Node} (h : root.Comes n) (hDefine : n.isDefine = false) (hPart : m ∈ n.parts) :
    root.Comes m
  | means {n m : Node} (h : root.Comes n) (hMeans : n.Means m) : root.Comes m

theorem Comes.trans {root n m : Node} (h : root.Comes n) (h' : n.Comes m) : root.Comes m := by
  induction h' with
  | root => exact h
  | part _ hDefine hPart ih => exact .part ih hDefine hPart
  | means _ hMeans ih => exact .means ih hMeans

/-- Code that runs straight on, and whose targets are targets. -/
def IsFlat (n : Node) : Prop := n.IsOwn ∧ n.IsStraight ∧ n.HasTargets

theorem laidOut_of_comes (hF : Layout F) {n : Node} (h : n.Everywhere false IsFlat)
    (hClose : ∀ m, n.Comes m → m.BranchesClose F) : LaidOut F n := by
  induction hWeight : n.weight using Nat.strong_induction_on generalizing n with
  | _ w ih =>
    subst hWeight
    obtain ⟨hOwn, hStraight, hTargets⟩ := h n .root
    have hCode : n.code.Lays F [] fun o => [o.node] := by
      refine lays_code hF hOwn hStraight hTargets (hClose n .root) (fun hDefine m hm => ?_)
        fun m hm => ?_
      · exact ih _ (weight_lt_of_mem_parts hm) (h.parts hDefine m hm)
          (fun k hk => hClose k (.trans (.part .root hDefine hm) hk)) rfl
      · exact ih _ hm.weight_lt (everywhere_of_means
          (fun _ hk => ⟨hk.isOwn, hk.isStraight, hk.hasTargets⟩) hm h)
          (fun k hk => hClose k (.trans (.means .root hm) hk)) rfl
    exact fun file st moves o st' hRuns => hCode file st moves o st' hRuns.of_transform

/-! ## Each version once -/

/-- Every path through what the tree becomes assigns each version once. -/
theorem fits_of_everywhere {n : Node} (h : n.Everywhere false IsFlat) : Code.LaidOut Fits n := by
  refine laidOut_of_comes layout_fits h fun m _ => ?_
  cases m with
  | cond => exact ⟨Code.closes_fits _ _, Code.closes_fits _ _⟩
  | _ => trivial

end Node

end CoreTree
