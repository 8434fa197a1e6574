import CoreTree.Proofs.Requires.Answers
import CoreTree.Proofs.Runs.Sugar
import CoreTree.Proofs.Runs.Unfold
import CoreTree.Proofs.Runs.Weight

/-! # Laws about atoms

Normalization makes atoms of its own: temporaries, types, and constants. A law says what is asked of
the atoms in a tree by what a program has allocated, and holds of whatever is allocated next. What
actions do under a law is told whether they succeed or fail: the program stays sound, it comes
later, and the atoms of a result are as the law asks.
-/
namespace CoreTree
set_option autoImplicit false

namespace Node

@[simp]
def AtomIs (A : Atom → Prop) : Node → Prop
  | .atom _ a => A a
  | _ => True

/-- Each atom that the tree holds at any depth is as `A` asks. -/
def AtomsAll (A : Atom → Prop) : Node → Prop := Everywhere true (AtomIs A)

variable {n : Node} {A B : Atom → Prop}

theorem atomsAll_iff : n.AtomsAll A ↔ n.AtomIs A ∧ ∀ part ∈ n.parts, part.AtomsAll A :=
  (everywhere_iff n).trans (and_congr_right fun _ => forall_prop_of_true (.inl rfl))

theorem atomsAll_of_parts (h : n.AtomIs A) (hParts : ∀ part ∈ n.parts, part.AtomsAll A) :
    n.AtomsAll A :=
  atomsAll_iff.mpr ⟨h, hParts⟩

theorem AtomsAll.parts (h : n.AtomsAll A) : ∀ part ∈ n.parts, part.AtomsAll A :=
  (atomsAll_iff.mp h).2

theorem atomsAll_atom {s : Span} {a : Atom} (h : A a) : (atom s a).AtomsAll A :=
  atomsAll_of_parts h nofun

theorem AtomsAll.mono (h : n.AtomsAll A) (hImp : ∀ a, A a → B a) : n.AtomsAll B := by
  intro m hm
  have hAtom := h m hm
  cases m with
  | atom s a => exact hImp a hAtom
  | _ => trivial

theorem IsNew.atomIs {temps saved : Symbol → Prop} (h : n.IsNew temps saved) (hNil : A .nil)
    (hBool : ∀ b, A (.bool b)) (hTemp : ∀ t, temps t → A (.temp t)) : n.AtomIs A := by
  cases n with
  | atom s a =>
    cases a with
    | nil => exact hNil
    | bool b => exact hBool b
    | temp t => exact hTemp t h.2.1
    | _ => exact h.2.1.elim
  | _ => trivial

end Node

structure AtomLaw where
  sound : Program → Prop
  later : Program → Program → Prop
  admits : Program → Atom → Prop
  refl (p : Program) : later p p
  trans {p q r : Program} (h : later p q) (h' : later q r) : later p r
  mono {p q : Program} {a : Atom} (h : later p q) (ha : admits p a) : admits q a
  /-- The law is about temporaries and types. -/
  plain (p : Program) {a : Atom} (hTemp : ∀ t, a ≠ .temp t) (hType : ∀ type, a ≠ .generic type) :
    admits p a
  freshTemp {p : Program} (h : sound p) : sound p.freshTemp.2 ∧ later p p.freshTemp.2 ∧
    admits p.freshTemp.2 (.temp p.freshTemp.1)
  regexConstant {p : Program} (text : Symbol) (s : Span) (h : sound p) :
    sound (p.regexConstant text s).2 ∧ later p (p.regexConstant text s).2
  genericType {p : Program} (base : Symbol) (args : List TypeArg) (h : sound p)
    (hArgs : ∀ e ∈ (GenericType.mk base args).exprs, e.AtomsAll (admits p)) :
    sound (p.genericType base args).2 ∧ later p (p.genericType base args).2 ∧
      admits (p.genericType base args).2 (.generic (p.genericType base args).1)
  resolve {p : Program} (requested : String) (requestedFrom : Option SourcePath) (h : sound p) :
    sound (p.resolve requested requestedFrom).2 ∧ later p (p.resolve requested requestedFrom).2 ∧
      ∀ found, (p.resolve requested requestedFrom).1 = .ok (some found) →
        found.root.AtomsAll (admits (p.resolve requested requestedFrom).2)
  track {p : Program} (requires : Tracker) (h : sound p) :
    sound { p with requires } ∧ later p { p with requires }

variable {L : AtomLaw} {p q : Program} {answer : RequireHandler} {α β : Type}

def AtomLaw.Admits (L : AtomLaw) (p : Program) : Node → Prop := Node.AtomsAll (L.admits p)

namespace AtomLaw

theorem Admits.later {n : Node} (h : L.Admits p n) (hLater : L.later p q) : L.Admits q n :=
  Node.AtomsAll.mono h fun _ => L.mono hLater

theorem admits_nop (s : Span) : L.Admits p (.nop s) := Node.atomsAll_atom (L.plain p nofun nofun)

theorem admits_nil (s : Span) : L.Admits p (.nil s) := Node.atomsAll_atom (L.plain p nofun nofun)

theorem admits_int (s : Span) (k : Int) : L.Admits p (.int s k) :=
  Node.atomsAll_atom (L.plain p nofun nofun)

theorem admits_bool (s : Span) (b : Bool) : L.Admits p (.bool s b) :=
  Node.atomsAll_atom (L.plain p nofun nofun)

theorem admits_globalConst (s : Span) (x : Symbol) : L.Admits p (.globalConst s x) :=
  Node.atomsAll_atom (L.plain p nofun nofun)

theorem admits_var (s : Span) (v : Var) : L.Admits p (.var s v) :=
  Node.atomsAll_of_parts trivial nofun

theorem admits_assign (s : Span) {target value : Node} (hTarget : L.Admits p target)
    (hValue : L.Admits p value) : L.Admits p (.assign s target value) := by
  refine Node.atomsAll_of_parts trivial fun part hPart => ?_
  obtain rfl | rfl : part = target ∨ part = value := by simpa using hPart
  · exact hTarget
  · exact hValue

theorem admits_send (s : Span) (name : Symbol) {receiver : Node} {args : List Node}
    (hReceiver : L.Admits p receiver) (hArgs : ∀ n ∈ args, L.Admits p n) :
    L.Admits p (.send s receiver name args) := by
  refine Node.atomsAll_of_parts trivial fun part hPart => ?_
  obtain rfl | hPart : part = receiver ∨ part ∈ args := by
    simpa [Node.send] using hPart
  · exact hReceiver
  · exact hArgs part hPart

theorem admits_seq {s : Span} {stmts : List Node} :
    L.Admits p (.seq s stmts) ↔ ∀ n ∈ stmts, L.Admits p n :=
  Node.atomsAll_iff.trans (and_iff_right trivial)

theorem Admits.statements {n : Node} (h : L.Admits p n) : ∀ m ∈ n.statements, L.Admits p m := by
  unfold Node.statements
  split
  · exact nofun
  · exact admits_seq.mp h
  · exact List.forall_mem_singleton.mpr h

theorem admits_ofStatements (s : Span) {ns : List Node} (h : ∀ n ∈ ns, L.Admits p n) :
    L.Admits p (.ofStatements s ns) := by
  match ns with
  | [] => exact admits_nop s
  | [n] => exact h n (.head _)
  | _ :: _ :: _ => exact admits_seq.mpr h

theorem admits_branchStatements {branch : Option Node} (h : ∀ n, branch = some n → L.Admits p n) :
    ∀ n ∈ branchStatements branch, L.Admits p n := by
  cases branch with
  | none => exact nofun
  | some n => exact (h n rfl).statements

theorem admits_bridges (s : Span) (bridges : List Bridge) :
    ∀ n ∈ bridges.map (·.node s), L.Admits p n := by
  intro n hn
  obtain ⟨b, _, rfl⟩ := List.mem_map.mp hn
  refine admits_assign s (admits_var s _) ?_
  cases b.source with
  | none => exact admits_nil s
  | some _ => exact admits_var s _

end AtomLaw

/-! ## Actions under a law -/

/-- From a program later than `p`, the action leads to a later one, whether it succeeds or fails,
and `Q` holds of what it gives. -/
def Norm.Keeps (L : AtomLaw) (p : Program) (act : Norm α) (Q : Program → α → Prop) : Prop :=
  ∀ st, L.sound st.program → L.later p st.program → match act.run st with
    | .ok a st' => (L.sound st'.program ∧ L.later st.program st'.program) ∧ Q st'.program a
    | .error _ st' => L.sound st'.program ∧ L.later st.program st'.program

namespace Norm

variable {act : Norm α} {Q : Program → α → Prop} {R : Program → β → Prop}

theorem keeps_pure {a : α} (h : ∀ q, L.later p q → Q q a) : (pure a : Norm α).Keeps L p Q :=
  fun _ hSound hLater => ⟨⟨hSound, L.refl _⟩, h _ hLater⟩

theorem Keeps.bind {f : α → Norm β} (h : act.Keeps L p Q)
    (hNext : ∀ a q, L.later p q → Q q a → (f a).Keeps L q R) : (act >>= f).Keeps L p R := by
  intro st hSound hLater
  have hAct := h st hSound hLater
  rw [EStateM.run_bind]
  cases hRun : act.run st with
  | error e st' =>
    rw [hRun] at hAct
    exact hAct
  | ok a st' =>
    rw [hRun] at hAct
    obtain ⟨⟨hSound', hLater'⟩, ha⟩ := hAct
    have hRest := hNext a st'.program (L.trans hLater hLater') ha st' hSound' (L.refl _)
    dsimp only
    cases hNextRun : (f a).run st' with
    | ok b st'' =>
      rw [hNextRun] at hRest
      exact ⟨⟨hRest.1.1, L.trans hLater' hRest.1.2⟩, hRest.2⟩
    | error e st'' =>
      rw [hNextRun] at hRest
      exact ⟨hRest.1, L.trans hLater' hRest.2⟩

/-- Steps that leave the program alone. -/
theorem keeps_of_same (h : ∀ st, match act.run st with
    | .ok _ st' | .error _ st' => st'.program = st.program) :
    act.Keeps L p fun _ _ => True := by
  intro st hSound _
  have hStays : ∀ q, q = st.program → L.sound q ∧ L.later st.program q := by
    rintro _ rfl
    exact ⟨hSound, L.refl _⟩
  have hSame := h st
  revert hSame
  cases act.run st with
  | ok a st' => exact fun hSame => ⟨hStays _ hSame, trivial⟩
  | error e st' => exact hStays _

theorem keeps_onProgram {f : Program → α × Program}
    (h : ∀ r, L.sound r → L.later p r →
      (L.sound (f r).2 ∧ L.later r (f r).2) ∧ Q (f r).2 (f r).1) :
    (onProgram f).Keeps L p Q := fun st hSound hLater => h st.program hSound hLater

theorem keeps_freshTemp : freshTemp.Keeps L p fun q t => L.admits q (.temp t) :=
  keeps_onProgram fun _ hSound _ =>
    let ⟨hSound', hLater', hTemp⟩ := L.freshTemp hSound
    ⟨⟨hSound', hLater'⟩, hTemp⟩

theorem Keeps.inScope (h : act.Keeps L p Q) (scope : Scope) : (inScope scope act).Keeps L p Q := by
  intro st hSound hLater
  have hAct := h ⟨st.program, scope⟩ hSound hLater
  rw [run_inScope]
  revert hAct
  cases act.run ⟨st.program, scope⟩ <;> exact id

theorem keeps_appendBridges (s : Span) {branch : Option Node} (bridges : List Bridge)
    (h : ∀ n, branch = some n → L.Admits p n) :
    (appendBridges s branch bridges).Keeps L p fun q n => ∀ m, n = some m → L.Admits q m := by
  have hStmts := AtomLaw.admits_branchStatements h
  unfold appendBridges
  split
  · exact keeps_pure fun q hq n hn => (h n hn).later hq
  · simp only
    split
    · refine keeps_pure fun q hq => ?_
      rintro _ ⟨⟩
      exact AtomLaw.admits_seq.mpr (List.forall_mem_append.mpr
        ⟨AtomLaw.admits_bridges s bridges, List.forall_mem_singleton.mpr (AtomLaw.admits_nil s)⟩)
    · rename_i last hLast
      have hInit : ∀ n ∈ (branchStatements branch).dropLast, L.Admits p n := fun n hn =>
        hStmts n (List.dropLast_subset _ hn)
      have hLast := hStmts last (List.mem_of_getLast? hLast)
      split
      · refine keeps_pure fun q hq => ?_
        rintro _ ⟨⟩
        refine AtomLaw.admits_seq.mpr (List.forall_mem_append.mpr ⟨List.forall_mem_append.mpr
          ⟨fun n hn => (hInit n hn).later hq, AtomLaw.admits_bridges s bridges⟩, ?_⟩)
        exact List.forall_mem_singleton.mpr (hLast.later hq)
      · refine keeps_freshTemp.bind fun t q hq ht => keeps_pure fun r hr => ?_
        rintro _ ⟨⟩
        have hTemp : L.Admits r (.temp last.span t) := Node.atomsAll_atom (L.mono hr ht)
        have hLater := L.trans hq hr
        have hSaved := AtomLaw.admits_assign last.span hTemp (hLast.later hLater)
        refine AtomLaw.admits_seq.mpr (List.forall_mem_append.mpr ⟨List.forall_mem_append.mpr
          ⟨List.forall_mem_append.mpr ⟨fun n hn => (hInit n hn).later hLater,
            List.forall_mem_singleton.mpr hSaved⟩, AtomLaw.admits_bridges s bridges⟩, ?_⟩)
        exact List.forall_mem_singleton.mpr hTemp

def AdmitsEnd (L : AtomLaw) (q : Program) (e : Option BranchEnd) : Prop :=
  ∀ n, e.bind (·.node) = some n → L.Admits q n

theorem AdmitsEnd.later {e : Option BranchEnd} (h : AdmitsEnd L p e) (hLater : L.later p q) :
    AdmitsEnd L q e := fun n hn => (h n hn).later hLater

theorem keeps_close (s : Span) {e : Option BranchEnd} (bridges : List Bridge)
    (h : AdmitsEnd L p e) :
    (BranchEnd.close s e bridges).Keeps L p fun q n => ∀ m, n = some m → L.Admits q m := by
  cases e with
  | none => exact keeps_appendBridges s bridges nofun
  | some b =>
    unfold BranchEnd.close
    simp only
    split
    · exact keeps_pure fun q hq n hn => (h n hn).later hq
    · exact keeps_appendBridges s bridges h

theorem admits_closeLoop (s : Span) {e : Option BranchEnd} (bridges : List Bridge)
    (h : AdmitsEnd L p e) : ∀ n, BranchEnd.closeLoop s e bridges = some n → L.Admits p n := by
  have hAppend : ∀ body : Option Node, (∀ n, body = some n → L.Admits p n) →
      ∀ n, appendLoopBridges s body bridges = some n → L.Admits p n := by
    intro body hBody n hn
    unfold appendLoopBridges at hn
    split at hn
    · exact hBody n hn
    · cases hn
      exact AtomLaw.admits_ofStatements s (List.forall_mem_append.mpr
        ⟨AtomLaw.admits_branchStatements hBody, AtomLaw.admits_bridges s bridges⟩)
  cases e with
  | none => exact hAppend none nofun
  | some b =>
    unfold BranchEnd.closeLoop
    simp only
    split
    · exact h
    · exact hAppend b.node h

end Norm

end CoreTree
