import CoreTree.Normal.Sugar
import CoreTree.Proofs.Meaning.OfNode
import CoreTree.Proofs.Versions.Renewal
import Mathlib.Data.List.Perm.Basic

/-! # Paths through a normalized tree

A path goes through the parts of a tree in the order of their evaluation, takes one branch of each
conditional and stops where a jump leaves the scope. What is kept of it are the versions that it
assigns.
-/
namespace CoreTree
set_option autoImplicit false

/-- A variable as the target of an assignment is written where it stands, like an out-variable. -/
def Node.asTarget : Node → Node
  | .var s v => .var s { v with out := true }
  | n => n

mutual
/-- A path, by the versions that it assigns, and whether it leaves by a jump. Loops, blocks and
sugar are left out, and the body of a definition is no part of the paths around it. -/
inductive Node.Path : Node → List (Symbol × Nat) → Bool → Prop where
  | atom (s : Span) (a : Atom) : Node.Path (.atom s a) [] false
  | read (s : Span) (v : Var) (h : v.out = false) : Node.Path (.var s v) [] false
  | write (s : Span) (v : Var) (h : v.out = true) : Node.Path (.var s v) [v.cell] false
  | seq {s : Span} {stmts : List Node} {π : List (Symbol × Nat)} {leaves : Bool}
    (h : PathAll stmts π leaves) : Node.Path (.seq s stmts) π leaves
  | onTrue {s : Span} {test : Node} {body other : Option Node} {π π' : List (Symbol × Nat)}
    {leaves : Bool} (hTest : Node.Path test π false) (h : PathAll body.toList π' leaves) :
    Node.Path (.cond s .whenTrue test body other) (π ++ π') leaves
  | onFalse {s : Span} {test : Node} {body other : Option Node} {π π' : List (Symbol × Nat)}
    {leaves : Bool} (hTest : Node.Path test π false) (h : PathAll other.toList π' leaves) :
    Node.Path (.cond s .whenTrue test body other) (π ++ π') leaves
  | inTest {s : Span} {test : Node} {body other : Option Node} {π : List (Symbol × Nat)}
    (hTest : Node.Path test π true) : Node.Path (.cond s .whenTrue test body other) π true
  | jump {s : Span} {kind : JumpKind} {value : Option Node} {π : List (Symbol × Nat)}
    {leaves : Bool} (h : PathAll value.toList π leaves) : Node.Path (.jump s kind value) π true
  | assign {s : Span} {target value : Node} {π : List (Symbol × Nat)} {leaves : Bool}
    (h : PathAll [value, target.asTarget] π leaves) : Node.Path (.assign s target value) π leaves
  | multi {s : Span} {targets values : List Node} {π : List (Symbol × Nat)} {leaves : Bool}
    (h : PathAll (values ++ targets.map Node.asTarget) π leaves) :
    Node.Path (.multi s targets values) π leaves
  | call {s : Span} {receiver : Option Node} {name : Symbol} {args : List Node}
    {π : List (Symbol × Nat)} {leaves : Bool} (h : PathAll (receiver.toList ++ args) π leaves) :
    Node.Path (.call s receiver name args none) π leaves
  | isA {s : Span} {subject : Node} {type : ConstPath} {π : List (Symbol × Nat)} {leaves : Bool}
    (h : Node.Path subject π leaves) : Node.Path (.isA s subject type) π leaves
  | define (s : Span) (kind : DefKind) (name : Symbol) (params : List (Param Node))
    (body : Option Node) : Node.Path (.define s kind name params body) [] false

/-- A path through trees that are evaluated in turn, up to the first one that it leaves. -/
inductive PathAll : List Node → List (Symbol × Nat) → Bool → Prop where
  | nil : PathAll [] [] false
  | cons {n : Node} {ns : List Node} {π π' : List (Symbol × Nat)} {leaves : Bool}
    (h : n.Path π false) (hRest : PathAll ns π' leaves) : PathAll (n :: ns) (π ++ π') leaves
  | here {n : Node} {ns : List Node} {π : List (Symbol × Nat)} (h : n.Path π true) :
    PathAll (n :: ns) π true
end

variable {n : Node} {ns ms : List Node} {π : List (Symbol × Nat)} {leaves : Bool}

theorem pathAll_nil_iff : PathAll [] π leaves ↔ π = [] ∧ leaves = false := by
  constructor
  · rintro ⟨⟩
    exact ⟨rfl, rfl⟩
  · rintro ⟨rfl, rfl⟩
    exact .nil

theorem pathAll_append_iff : PathAll (ns ++ ms) π leaves ↔
    (PathAll ns π true ∧ leaves = true) ∨
      ∃ π₁ π₂, PathAll ns π₁ false ∧ PathAll ms π₂ leaves ∧ π = π₁ ++ π₂ := by
  induction ns generalizing π with
  | nil => simp [pathAll_nil_iff]
  | cons n ns ih =>
    constructor
    · intro h
      cases h with
      | here h => exact .inl ⟨.here h, rfl⟩
      | cons h hRest =>
        obtain ⟨hFirst, rfl⟩ | ⟨π₁, π₂, hFirst, hSecond, rfl⟩ := ih.mp hRest
        · exact .inl ⟨.cons h hFirst, rfl⟩
        · exact .inr ⟨_, π₂, .cons h hFirst, hSecond, (List.append_assoc ..).symm⟩
    · rintro (⟨h, rfl⟩ | ⟨π₁, π₂, hFirst, hSecond, rfl⟩)
      · cases h with
        | here h => exact .here h
        | cons h hRest => exact .cons h (ih.mpr (.inl ⟨hRest, rfl⟩))
      · cases hFirst with
        | cons h hRest =>
          rw [List.append_assoc]
          exact .cons h (ih.mpr (.inr ⟨_, π₂, hRest, hSecond, rfl⟩))

theorem pathAll_singleton_iff : PathAll [n] π leaves ↔ n.Path π leaves := by
  constructor
  · intro h
    cases h with
    | here h => exact h
    | cons h hRest =>
      obtain ⟨rfl, rfl⟩ := pathAll_nil_iff.mp hRest
      rwa [List.append_nil]
  · intro h
    cases leaves with
    | true => exact .here h
    | false => simpa using PathAll.cons h .nil

theorem path_seq_iff {s : Span} {stmts : List Node} :
    (Node.seq s stmts).Path π leaves ↔ PathAll stmts π leaves := by
  constructor
  · rintro ⟨⟩
    assumption
  · exact .seq

theorem path_atom_iff {s : Span} {a : Atom} :
    (Node.atom s a).Path π leaves ↔ π = [] ∧ leaves = false := by
  constructor
  · rintro ⟨⟩
    exact ⟨rfl, rfl⟩
  · rintro ⟨rfl, rfl⟩
    exact .atom s a

/-! ## Sequences put together -/

theorem pathAll_statements_iff : PathAll n.statements π leaves ↔ n.Path π leaves := by
  unfold Node.statements
  split
  · rw [pathAll_nil_iff, path_atom_iff]
  · exact path_seq_iff.symm
  · exact pathAll_singleton_iff

theorem path_ofStatements_iff {s : Span} :
    (Node.ofStatements s ns).Path π leaves ↔ PathAll ns π leaves := by
  unfold Node.ofStatements
  split
  · rw [pathAll_nil_iff]
    exact path_atom_iff
  · exact pathAll_singleton_iff.symm
  · exact path_seq_iff

theorem pathAll_toOption_iff : PathAll n.toOption.toList π leaves ↔ n.Path π leaves := by
  unfold Node.toOption
  split
  · rename_i hNop
    obtain ⟨s, rfl⟩ : ∃ s, n = .nop s := by
      cases n with
      | atom s a => cases a <;> first | exact ⟨s, rfl⟩ | cases hNop
      | _ => cases hNop
    rw [Option.toList_none, pathAll_nil_iff]
    exact path_atom_iff.symm
  · exact pathAll_singleton_iff

theorem pathAll_branchStatements_iff {branch : Option Node} :
    PathAll (branchStatements branch) π leaves ↔ PathAll branch.toList π leaves := by
  cases branch with
  | none => rfl
  | some n => exact pathAll_statements_iff.trans pathAll_singleton_iff.symm

/-! ## Bridges -/

theorem path_assign_temp_iff {s s' : Span} {t : Symbol} {value : Node} :
    (Node.assign s (.temp s' t) value).Path π leaves ↔ value.Path π leaves := by
  have hTarget : ∀ {π leaves}, PathAll [value, .temp s' t] π leaves ↔ value.Path π leaves := by
    intro π leaves
    rw [← pathAll_singleton_iff, show [value, .temp s' t] = [value] ++ [.temp s' t] from rfl,
      pathAll_append_iff]
    simp only [pathAll_singleton_iff, Node.temp, path_atom_iff]
    constructor
    · rintro (⟨h, rfl⟩ | ⟨_, _, h, ⟨rfl, rfl⟩, rfl⟩)
      · exact h
      · rwa [List.append_nil]
    · intro h
      cases leaves with
      | true => exact .inl ⟨h, rfl⟩
      | false => exact .inr ⟨π, [], h, ⟨rfl, rfl⟩, (List.append_nil π).symm⟩
  constructor
  · rintro ⟨⟩
    rename_i h
    exact hTarget.mp h
  · exact fun h => .assign (hTarget.mpr h)

theorem path_bridge_iff {s : Span} {b : Bridge} :
    (b.node s).Path π leaves ↔ π = [b.cell] ∧ leaves = false := by
  obtain ⟨target, value, hNode, hTarget, hValue⟩ : ∃ target value,
      b.node s = .assign s target value ∧
      target.asTarget = .var s ⟨b.name, b.target, true⟩ ∧
      ∀ {π leaves}, value.Path π leaves ↔ π = [] ∧ leaves = false := by
    refine ⟨_, _, rfl, rfl, ?_⟩
    intro π leaves
    split
    · constructor
      · intro h
        cases h with
        | read => exact ⟨rfl, rfl⟩
        | write _ _ hOut => cases hOut
      · rintro ⟨rfl, rfl⟩
        exact .read _ _ rfl
    · exact path_atom_iff
  have hWrite : ∀ {π leaves}, target.asTarget.Path π leaves ↔ π = [b.cell] ∧ leaves = false := by
    intro π leaves
    rw [hTarget]
    constructor
    · intro h
      cases h with
      | read _ _ hOut => cases hOut
      | write => exact ⟨rfl, rfl⟩
    · rintro ⟨rfl, rfl⟩
      exact .write s _ rfl
  rw [hNode]
  constructor
  · intro h
    cases h with
    | assign h =>
      cases h with
      | here h => cases (hValue.mp h).2
      | cons h hRest =>
        obtain ⟨rfl, -⟩ := hValue.mp h
        exact hWrite.mp (pathAll_singleton_iff.mp hRest)
  · rintro ⟨rfl, rfl⟩
    exact .assign (.cons (hValue.mpr ⟨rfl, rfl⟩)
      (pathAll_singleton_iff.mpr (hWrite.mpr ⟨rfl, rfl⟩)))

theorem pathAll_bridges_iff {s : Span} {bridges : List Bridge} :
    PathAll (bridges.map (·.node s)) π leaves ↔ π = bridges.map Bridge.cell ∧ leaves = false := by
  induction bridges generalizing π with
  | nil => exact pathAll_nil_iff
  | cons b bs ih =>
    rw [List.map_cons, List.map_cons]
    constructor
    · intro h
      cases h with
      | here h => cases (path_bridge_iff.mp h).2
      | cons h hRest =>
        obtain ⟨rfl, -⟩ := path_bridge_iff.mp h
        obtain ⟨rfl, rfl⟩ := ih.mp hRest
        exact ⟨rfl, rfl⟩
    · rintro ⟨rfl, rfl⟩
      exact .cons (path_bridge_iff.mpr ⟨rfl, rfl⟩) (ih.mpr ⟨rfl, rfl⟩)

/-- No path through the tree assigns or leaves. -/
def Node.Quiet (n : Node) : Prop := ∀ π leaves, n.Path π leaves → π = [] ∧ leaves = false

theorem quiet_atom (s : Span) (a : Atom) : (Node.atom s a).Quiet := fun _ _ h =>
  path_atom_iff.mp h

theorem quiet_or_out_of_isPure (h : n.isPure = true) :
    n.Quiet ∨ ∃ s v, n = .var s v ∧ v.out = true := by
  cases n with
  | atom s a => exact .inl (quiet_atom s a)
  | var s v =>
    cases hOut : v.out with
    | true => exact .inr ⟨s, v, rfl, hOut⟩
    | false =>
      refine .inl fun π leaves hPath => ?_
      cases hPath with
      | read => exact ⟨rfl, rfl⟩
      | write _ _ hWrite => exact absurd (hOut.symm.trans hWrite) Bool.false_ne_true
  | _ => cases h

/-- A path of what became of a branch: one that was there before, or one with the bridges
somewhere in between. -/
def Bridged (branch : List Node) (bridges : List Bridge) (π : List (Symbol × Nat)) : Prop :=
  (∃ leaves, PathAll branch π leaves) ∨
    ∃ π₁ leaves, PathAll branch π₁ leaves ∧ π.Perm (π₁ ++ bridges.map Bridge.cell)

theorem pathAll_bridges_between {s : Span} {bridges : List Bridge} (ns : List Node)
    (h : PathAll (ns ++ (bridges.map (·.node s) ++ ms)) π leaves) :
    PathAll ns π true ∨ ∃ π₁ π₂, PathAll ns π₁ false ∧ PathAll ms π₂ leaves ∧
      π = π₁ ++ (bridges.map Bridge.cell ++ π₂) := by
  obtain ⟨h, -⟩ | ⟨π₁, π₂, hFirst, hRest, rfl⟩ := pathAll_append_iff.mp h
  · exact .inl h
  · obtain ⟨hBridges, -⟩ | ⟨_, π₃, hBridges, hLast, rfl⟩ := pathAll_append_iff.mp hRest
    · cases (pathAll_bridges_iff.mp hBridges).2
    · obtain ⟨rfl, -⟩ := pathAll_bridges_iff.mp hBridges
      exact .inr ⟨π₁, π₃, hFirst, hLast, rfl⟩

/-- A branch with the bridges in it: a path reaches them and goes on behind them, which assigns
something only if an out-variable stood at the branch's end. -/
def Parted (branch : List Node) (bridges : List Bridge) (π : List (Symbol × Nat)) : Prop :=
  ∃ π₁ π₂ leaves, PathAll branch (π₁ ++ π₂) leaves ∧ π = π₁ ++ (bridges.map Bridge.cell ++ π₂) ∧
    (π₂ = [] ∨ ∃ s v, branch.getLast? = some (.var s v) ∧ v.out = true ∧ π₂ = [v.cell])

theorem parted_of_appendBridges {s : Span} {branch closed : Option Node} {bridges : List Bridge}
    {st st' : NormalState} (h : (appendBridges s branch bridges).run st = .ok closed st')
    (hPath : PathAll closed.toList π leaves) :
    (∃ l, PathAll (branchStatements branch) π l) ∨ Parted (branchStatements branch) bridges π := by
  unfold appendBridges at h
  split at h
  · cases h
    exact .inl ⟨leaves, pathAll_branchStatements_iff.mpr hPath⟩
  · simp only at h
    cases hLast : (branchStatements branch).getLast? with
    | none =>
      rw [hLast] at h
      cases h
      rw [List.getLast?_eq_none_iff.mp hLast]
      have hPath := path_seq_iff.mp (pathAll_singleton_iff.mp hPath)
      obtain h | ⟨_, π₂, hFirst, hNil, rfl⟩ := pathAll_bridges_between [] hPath
      · cases (pathAll_nil_iff.mp h).2
      · obtain ⟨rfl, -⟩ := pathAll_nil_iff.mp hFirst
        obtain ⟨rfl, -⟩ := path_atom_iff.mp (pathAll_singleton_iff.mp hNil)
        exact .inr ⟨[], [], false, .nil, by simp, .inl rfl⟩
    | some last =>
      have hStmts : branchStatements branch = (branchStatements branch).dropLast ++ [last] :=
        (List.dropLast_append_getLast? last hLast).symm
      generalize (branchStatements branch).dropLast = init at h hStmts
      rw [hLast] at h
      rw [hStmts]
      simp only at h
      split at h
      · -- the value stays behind the bridges
        rename_i hPure
        cases h
        have hPath := path_seq_iff.mp (pathAll_singleton_iff.mp hPath)
        rw [List.append_assoc] at hPath
        obtain h | ⟨π₁, π₂, hInit, hValue, rfl⟩ := pathAll_bridges_between _ hPath
        · exact .inl ⟨true, pathAll_append_iff.mpr (.inl ⟨h, rfl⟩)⟩
        · refine .inr ⟨π₁, π₂, leaves,
            pathAll_append_iff.mpr (.inr ⟨π₁, π₂, hInit, hValue, rfl⟩), rfl, ?_⟩
          have hValue := pathAll_singleton_iff.mp hValue
          obtain hQuiet | ⟨s', v, rfl, hOut⟩ := quiet_or_out_of_isPure hPure
          · exact .inl (hQuiet _ _ hValue).1
          · refine .inr ⟨s', v, List.getLast?_concat, hOut, ?_⟩
            cases hValue with
            | read _ _ hRead => exact absurd (hRead.symm.trans hOut) Bool.false_ne_true
            | write => rfl
      · -- the value is saved before the bridges
        cases h
        have hPath := path_seq_iff.mp (pathAll_singleton_iff.mp hPath)
        rw [List.append_assoc] at hPath
        have hSaved : ∀ {t π leaves}, PathAll (init ++ [Node.assign last.span
            (.temp last.span t) last]) π leaves → PathAll (init ++ [last]) π leaves := by
          intro t π leaves h
          simp only [pathAll_append_iff, pathAll_singleton_iff, path_assign_temp_iff] at h ⊢
          exact h
        obtain h | ⟨π₁, π₂, hInit, hTemp, rfl⟩ := pathAll_bridges_between _ hPath
        · exact .inl ⟨true, hSaved h⟩
        · obtain ⟨rfl, -⟩ := path_atom_iff.mp (pathAll_singleton_iff.mp hTemp)
          exact .inr ⟨π₁, [], false, (List.append_nil π₁).symm ▸ hSaved hInit, rfl, .inl rfl⟩

theorem parted_of_close {s : Span} {e : Option BranchEnd} {closed : Option Node}
    {bridges : List Bridge} {st st' : NormalState}
    (h : (BranchEnd.close s e bridges).run st = .ok closed st')
    (hPath : PathAll closed.toList π leaves) :
    (∃ l, PathAll (branchStatements (e.bind (·.node))) π l) ∨
      Parted (branchStatements (e.bind (·.node))) bridges π := by
  unfold BranchEnd.close at h
  split at h
  · exact parted_of_appendBridges h hPath
  · split at h
    · cases h
      exact .inl ⟨leaves, pathAll_branchStatements_iff.mpr hPath⟩
    · exact parted_of_appendBridges h hPath

/-- Where the bridges stand does not matter for what is assigned. -/
theorem bridged_of_close {s : Span} {e : Option BranchEnd} {closed : Option Node}
    {bridges : List Bridge} {st st' : NormalState}
    (h : (BranchEnd.close s e bridges).run st = .ok closed st')
    (hPath : PathAll closed.toList π leaves) :
    Bridged (e.bind (·.node)).toList bridges π := by
  obtain ⟨l, h⟩ | ⟨π₁, π₂, l, h, rfl, -⟩ := parted_of_close h hPath
  · exact .inl ⟨l, pathAll_branchStatements_iff.mp h⟩
  · refine .inr ⟨π₁ ++ π₂, l, pathAll_branchStatements_iff.mp h, ?_⟩
    rw [List.append_assoc]
    exact List.perm_append_comm.append_left π₁

/-! ## Calls put around parts -/

theorem pathAll_of_quiet (hQuiet : ∀ n ∈ ns, n.Quiet) (h : PathAll ns π leaves) :
    π = [] ∧ leaves = false := by
  induction ns generalizing π with
  | nil => exact pathAll_nil_iff.mp h
  | cons n ns ih =>
    obtain ⟨hHead, hRest⟩ := List.forall_mem_cons.mp hQuiet
    cases h with
    | here h => cases (hHead _ _ h).2
    | cons h hTail =>
      obtain ⟨rfl, -⟩ := hHead _ _ h
      obtain ⟨rfl, rfl⟩ := ih hRest hTail
      exact ⟨rfl, rfl⟩

theorem pathAll_of_quiet_left (ns : List Node) (hQuiet : ∀ n ∈ ns, n.Quiet)
    (h : PathAll (ns ++ ms) π leaves) : PathAll ms π leaves := by
  obtain ⟨h, -⟩ | ⟨_, π₂, hFirst, hSecond, rfl⟩ := pathAll_append_iff.mp h
  · cases (pathAll_of_quiet hQuiet h).2
  · obtain ⟨rfl, -⟩ := pathAll_of_quiet hQuiet hFirst
    exact hSecond

theorem pathAll_of_quiet_right (ms : List Node) (hQuiet : ∀ m ∈ ms, m.Quiet)
    (h : PathAll (ns ++ ms) π leaves) : PathAll ns π leaves := by
  obtain ⟨hFirst, rfl⟩ | ⟨π₁, _, hFirst, hSecond, rfl⟩ := pathAll_append_iff.mp h
  · exact hFirst
  · obtain ⟨rfl, rfl⟩ := pathAll_of_quiet hQuiet hSecond
    rwa [List.append_nil]

theorem path_send_iff {s : Span} {receiver : Node} {name : Symbol} {args : List Node} :
    (Node.send s receiver name args).Path π leaves ↔ PathAll (receiver :: args) π leaves := by
  constructor
  · rintro ⟨⟩
    assumption
  · exact fun h => .call h

theorem quiet_send (s : Span) {receiver : Node} (name : Symbol) {args : List Node}
    (hReceiver : receiver.Quiet) (hArgs : ∀ n ∈ args, n.Quiet) :
    (Node.send s receiver name args).Quiet := fun _ _ h =>
  pathAll_of_quiet (List.forall_mem_cons.mpr ⟨hReceiver, hArgs⟩) (path_send_iff.mp h)

/-- Pieces that are appended one by one are evaluated one by one. -/
theorem path_foldl_send {s : Span} {name : Symbol} {acc : Node}
    (h : (ns.foldl (fun acc piece => .send s acc name [piece]) acc).Path π leaves) :
    PathAll (acc :: ns) π leaves := by
  induction ns generalizing acc π with
  | nil => exact pathAll_singleton_iff.mpr h
  | cons n ns ih =>
    have hRest := ih h
    rw [← List.singleton_append, pathAll_append_iff] at hRest
    simp only [pathAll_singleton_iff, path_send_iff] at hRest
    rw [show acc :: n :: ns = [acc, n] ++ ns from rfl, pathAll_append_iff]
    exact hRest

theorem pathAll_of_forall₂ (hParts : List.Forall₂ (fun m n =>
    ∀ π leaves, m.Path π leaves → n.Path π leaves) ms ns) (h : PathAll ms π leaves) :
    PathAll ns π leaves := by
  induction hParts generalizing π with
  | nil => exact h
  | cons hHead _ ih =>
    cases h with
    | here h => exact .here (hHead _ _ h)
    | cons h hRest => exact .cons (hHead _ _ h) (ih hRest)

theorem forall₂_mapIdx {f : Nat → Node → Node} {R : Node → Node → Prop}
    (h : ∀ i n, R (f i n) n) (ns : List Node) : List.Forall₂ R (ns.mapIdx f) ns := by
  rw [List.forall₂_iff_get]
  refine ⟨List.length_mapIdx, fun i hi hi' => ?_⟩
  simp only [List.get_eq_getElem, List.getElem_mapIdx]
  exact h i _

/-- A path of an array literal goes through its elements. -/
theorem pathAll_of_arrayStatements {s : Span} {type : Node} {t : Symbol} (hType : type.Quiet)
    (h : PathAll (Pending.arrayStatements s type t ns) π leaves) : PathAll ns π leaves := by
  unfold Pending.arrayStatements at h
  have hTemp : ∀ {s}, (Node.temp s t).Quiet := fun {s} => quiet_atom s _
  have hInt : ∀ {s i}, ∀ n ∈ [Node.int s i], n.Quiet := by
    rintro s i _ (_ | ⟨_, ⟨⟩⟩)
    exact quiet_atom s _
  have h := pathAll_of_quiet_right _ (List.forall_mem_singleton.mpr hTemp) h
  have h := pathAll_of_quiet_left _ (fun n hn => ?_) h
  · refine pathAll_of_forall₂ (forall₂_mapIdx (fun i n π leaves hPath => ?_) ns) h
    have hPath := path_send_iff.mp hPath
    rw [← pathAll_singleton_iff]
    refine pathAll_of_quiet_left [_, _] ?_ hPath
    intro m hm
    obtain rfl | rfl : m = _ ∨ m = _ := by simpa using hm
    · exact quiet_send _ _ hTemp nofun
    · exact quiet_atom _ _
  · obtain rfl | rfl : n = _ ∨ n = _ := by simpa using hn
    · intro π leaves hPath
      exact quiet_send s _ hType hInt π leaves (path_assign_temp_iff.mp hPath)
    · exact quiet_send s _ hTemp hInt

theorem pathAll_of_entrySends {t : Symbol} {entries : List (HashEntry Node)}
    (h : PathAll (entries.map fun e => .send (e.key.span.merge e.value.span)
      (.temp (e.key.span.merge e.value.span) t) .indexSet [e.key, e.value]) π leaves) :
    PathAll (entries.flatMap fun e => [e.key, e.value]) π leaves := by
  induction entries generalizing π with
  | nil => exact h
  | cons e es ih =>
    have hEntry : ∀ {s π leaves}, (Node.send s (.temp s t) .indexSet [e.key, e.value]).Path
        π leaves → PathAll [e.key, e.value] π leaves := fun h =>
      pathAll_of_quiet_left [_] (List.forall_mem_singleton.mpr (quiet_atom _ _))
        (path_send_iff.mp h)
    rw [List.flatMap_cons, pathAll_append_iff]
    cases h with
    | here h => exact .inl ⟨hEntry h, rfl⟩
    | cons h hRest => exact .inr ⟨_, _, hEntry h, ih hRest, rfl⟩

/-- A path of a hash literal goes through its entries, key before value. -/
theorem pathAll_of_hashStatements {s : Span} {empty : Node} {t : Symbol}
    {entries : List (HashEntry Node)} (hEmpty : empty.Quiet)
    (h : PathAll (Pending.hashStatements s empty t entries) π leaves) :
    PathAll (entries.flatMap fun e => [e.key, e.value]) π leaves := by
  unfold Pending.hashStatements at h
  have h := pathAll_of_quiet_right _ (List.forall_mem_singleton.mpr (quiet_atom _ _)) h
  refine pathAll_of_entrySends (pathAll_of_quiet_left _ (fun n hn => ?_) h)
  obtain rfl := List.mem_singleton.mp hn
  intro π leaves hPath
  exact hEmpty π leaves (path_assign_temp_iff.mp hPath)

end CoreTree
