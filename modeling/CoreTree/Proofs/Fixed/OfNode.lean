import CoreTree.Proofs.Assignment.Single
import CoreTree.Proofs.CoreForm.OfNode
import CoreTree.Proofs.Fixed.Sugar

/-! # Normalizing twice

A tree that writes no local variable normalizes to a tree that normalizes to itself. The second
normalization does nothing at all to the program. There is one exception: a target that is no
constant but comes down to one is a constant the second time, and then its value sees no variables
any more.
-/
namespace CoreTree
set_option autoImplicit false

open CoreTree.Norm Pending

namespace Node

/-- The node requires no file and writes no local variable. -/
def WritesNoLocal : Node → Prop
  | .require .. => False
  | .var _ v => v.out = false
  | .assign _ target _ => target.isVar = false
  | .multi _ targets _ => ∀ t ∈ targets, t.isVar = false
  | _ => True

/-- A constant, as the target of an assignment. -/
def isConst : Node → Bool
  | .atom _ (.const _) => true
  | _ => false

/-- The targets of the node stay targets of their kind: what is no constant does not come down to
one, and nothing comes down to a variable. -/
def KeepsTargets : Node → Prop
  | .assign _ target _ => target.isConst = true ∨ ∀ answer, (target.pending answer).run.Gives
      fun o => o.node.isVar = false ∧ o.node.isConst = false
  | .multi _ targets _ => ∀ t ∈ targets, ∀ answer, (t.pending answer).run.Gives
      fun o => o.node.isVar = false
  | _ => True

theorem ne_const_of_isConst {n : Node} (h : n.isConst = false) (s : Span) (path : ConstPath) :
    n ≠ .atom s (.const path) := by
  rintro rfl
  cases h

theorem exists_of_isConst {n : Node} (h : n.isConst = true) :
    ∃ s path, n = .atom s (.const path) := by
  unfold isConst at h
  split at h
  · exact ⟨_, _, rfl⟩
  · cases h

theorem settlesTarget_pending {target : Node} {answer : RequireHandler}
    (hSettles : (target.pending answer).Settles) (hVar : target.isVar = false)
    (hKeeps : target.isConst = true ∨ (target.pending answer).run.Gives
      fun o => o.node.isVar = false ∧ o.node.isConst = false) :
    (target.pending answer).SettlesTarget where
  settles := hSettles
  isVar := by rwa [source_pending]
  const t path hConst := by
    rw [source_pending] at hConst ⊢
    rw [hConst]
    exact gives_pure rfl
  other hOther := by
    rw [source_pending] at hOther
    obtain hConst | hGives := hKeeps
    · obtain ⟨t, path, rfl⟩ := exists_of_isConst hConst
      exact absurd rfl (hOther t path)
    · exact fun st o st' hRun => ⟨(hGives st o st' hRun).1,
        ne_const_of_isConst (hGives st o st' hRun).2⟩

/-- A tree that writes no local variable and keeps its targets settles. -/
theorem settles_pending (answer : RequireHandler) {n : Node} (h : n.Everywhere true WritesNoLocal)
    (hTargets : n.Everywhere true KeepsTargets) : (n.pending answer).Settles := by
  induction hWeight : n.weight using Nat.strong_induction_on generalizing n with
  | _ w ih =>
    subst hWeight
    obtain ⟨hRoot, hParts⟩ := (everywhere_iff n).mp h
    obtain ⟨hRootTargets, hPartsTargets⟩ := (everywhere_iff n).mp hTargets
    have hSettles : ∀ m ∈ n.parts, (m.pending answer).Settles := fun m hm =>
      ih _ (weight_lt_of_mem_parts hm) (hParts (.inl rfl) m hm) (hPartsTargets (.inl rfl) m hm) rfl
    clear ih h hParts hTargets hPartsTargets
    cases n with
    | atom s a => exact settles_atom s a
    | var s v => exact settles_var s hRoot
    | seq s stmts => exact settles_seq s (forall_pendingList hSettles)
    | cond s form test body other =>
      simp only [parts, List.forall_mem_cons, List.forall_mem_append, Option.mem_toList] at hSettles
      exact settles_cond s form hSettles.1 (forall_pendingOption hSettles.2.1)
        (forall_pendingOption hSettles.2.2)
    | loop s test body =>
      simp only [parts, List.forall_mem_cons, Option.mem_toList] at hSettles
      exact settles_loop s hSettles.1 (forall_pendingOption hSettles.2)
    | choose s subject whens other =>
      simp only [parts, List.forall_mem_cons, List.forall_mem_append, Option.mem_toList] at hSettles
      have hWhens := hSettles.2.1
      refine settles_choose s hSettles.1 (forall_pendingWhens fun w hw => ⟨fun m hm => ?_,
        fun m hm => ?_⟩) (forall_pendingOption hSettles.2.2)
      · exact hWhens m (List.mem_flatMap.mpr ⟨w, hw, List.mem_append_left _ hm⟩)
      · exact hWhens m (List.mem_flatMap.mpr ⟨w, hw,
          List.mem_append_right _ (Option.mem_toList.mpr hm)⟩)
    | logic s op left right =>
      simp only [parts, List.forall_mem_cons] at hSettles
      exact settles_logic s op hSettles.1 hSettles.2.1
    | jump s kind value =>
      simp only [parts, Option.mem_toList] at hSettles
      exact settles_jump s kind (forall_pendingOption hSettles)
    | assign s target value =>
      simp only [parts, List.forall_mem_cons] at hSettles
      exact settles_assign s (settlesTarget_pending hSettles.1 hRoot
        (hRootTargets.imp_right fun hGives => hGives answer)) hSettles.2.1
    | multi s targets values =>
      simp only [parts, List.forall_mem_append] at hSettles
      refine settles_multi s (forall_pendingList fun t ht => ⟨hSettles.1 t ht, ?_,
        hRootTargets t ht answer⟩) (forall_pendingList hSettles.2)
      rw [source_pending]
      exact hRoot t ht
    | call s receiver name args block =>
      simp only [parts, List.forall_mem_append, Option.mem_toList] at hSettles
      rw [pending_call]
      refine settles_call s name (forall_pendingOption hSettles.1)
        (forall_pendingList hSettles.2.1) fun b hb => ?_
      obtain ⟨b, rfl, rfl⟩ := Option.map_eq_some_iff.mp hb
      exact forall_pendingOption hSettles.2.2
    | isA s subject type =>
      exact settles_isA s type (hSettles subject (.head _))
    | define s kind name params body =>
      simp only [parts, List.forall_mem_append, Option.mem_toList] at hSettles
      refine settles_define s kind name (forall_pendingParams fun x hx n hn => ?_)
        (forall_pendingOption hSettles.2)
      exact hSettles.1 n (List.mem_filterMap.mpr ⟨x, hx, hn⟩)
    | interp s pieces => exact settles_interp s (forall_pendingList hSettles)
    | range s first last exclusive =>
      simp only [parts, List.forall_mem_cons] at hSettles
      exact settles_range s hSettles.1 hSettles.2.1 exclusive
    | regex s text => exact settles_regex s text
    | array s elements type => exact settles_array s (forall_pendingList hSettles) type
    | hash s entries types =>
      refine settles_hash s (forall_pendingEntries fun e he => ⟨hSettles _ ?_, hSettles _ ?_⟩) types
      · exact List.mem_flatMap.mpr ⟨e, he, .head _⟩
      · exact List.mem_flatMap.mpr ⟨e, he, .tail _ (.head _)⟩
    | require s path => exact hRoot.elim

end Node

namespace Pending

/-- The tree comes down to neither a variable nor a constant. -/
def YieldsNoName (p : Pending) : Prop :=
  p.run.Gives fun o => o.node.isVar = false ∧ o.node.isConst = false

theorem yieldsNoName_of_cond {p : Pending} {s : Span}
    (h : p.run.Gives fun o => ∃ t a b, o.node = .cond s .whenTrue t a b) : p.YieldsNoName := by
  intro st o st' hRun
  obtain ⟨t, a, b, hNode⟩ := h st o st' hRun
  rw [hNode]
  exact ⟨rfl, rfl⟩

theorem yieldsNoName_assign (s : Span) (target value : Pending) :
    (assign s target value).YieldsNoName := by
  by_cases hConst : ∃ t path, target.source = .atom t (.const path)
  · obtain ⟨t, path, hTarget⟩ := hConst
    rw [YieldsNoName, run_assign_const s value hTarget]
    exact gives_bind fun _ => gives_bind fun _ => gives_pure ⟨rfl, rfl⟩
  · rw [YieldsNoName, run_assign s value rfl fun t path hTarget => hConst ⟨t, path, hTarget⟩]
    exact gives_bind fun _ => gives_bind fun _ => gives_pure ⟨rfl, rfl⟩

/-- One definition or a sequence of them. -/
theorem yieldsNoName_define (s : Span) (kind : DefKind) (name : Symbol)
    (params : List (Param Pending)) (body : Option Pending) :
    (define s kind name params body).YieldsNoName := by
  have hPlain : ∀ params body, (definePlain s kind name params body).run.Gives
      fun o => ∀ n ∈ o.node.statements, n.isDefine = true := fun _ _ =>
    gives_bind fun _ => gives_pure (List.forall_mem_singleton.mpr rfl)
  refine gives_ite (Gives.bind (gives_statements_forall (List.forall_mem_append.mpr
    ⟨forall_forwarders s kind name _ fun _ _ _ => hPlain _ _,
      List.forall_mem_singleton.mpr (hPlain _ _)⟩))
    fun r hr => gives_pure ?_) (gives_bind fun _ => gives_pure ⟨rfl, rfl⟩)
  obtain ⟨_ | ⟨n, _ | ⟨m, ns⟩⟩, ends⟩ := r
  · exact ⟨rfl, rfl⟩
  · have hDefine := hr n (.head _)
    show n.isVar = false ∧ n.isConst = false
    cases n <;> first | exact ⟨rfl, rfl⟩ | cases hDefine
  · exact ⟨rfl, rfl⟩

end Pending

/-- What may come down to a variable or a constant. -/
def Node.comesToName : Node → Bool
  | .atom _ (.const _) | .var .. | .seq .. | .choose .. | .regex .. | .require .. => true
  | _ => false

/-- Nothing but a name, a sequence, a `case` and a regex literal comes down to a name. -/
theorem Node.yieldsNoName_pending (answer : RequireHandler) {n : Node}
    (h : n.comesToName = false) : (n.pending answer).YieldsNoName := by
  cases n with
  | var | seq | choose | regex | require => cases h
  | atom s a =>
    refine gives_pure ⟨rfl, ?_⟩
    cases a <;> first | rfl | cases h
  | cond => exact yieldsNoName_of_cond (gives_cond _ _ _ _ _)
  | logic => exact yieldsNoName_of_cond (gives_logic _ _ _ _)
  | assign => exact yieldsNoName_assign _ _ _
  | define => exact yieldsNoName_define _ _ _ _ _
  | jump | isA | interp => exact gives_bind fun _ => gives_pure ⟨rfl, rfl⟩
  | multi | range => exact gives_bind fun _ => gives_bind fun _ => gives_pure ⟨rfl, rfl⟩
  | call =>
    rw [pending_call]
    exact gives_bind fun _ => gives_bind fun _ => gives_bind fun _ => gives_pure ⟨rfl, rfl⟩
  | loop =>
    exact gives_bind fun _ => gives_bind fun _ => gives_bind fun _ => gives_bind fun _ =>
      gives_bind fun _ => gives_bind fun _ => gives_pure ⟨rfl, rfl⟩
  | array | hash =>
    exact gives_bind fun _ => gives_bind fun _ => gives_ite (gives_pure ⟨rfl, rfl⟩)
      (gives_bind fun _ => gives_pure ⟨rfl, rfl⟩)

/-- Targets that are constants, or can come down to no name, stay targets of their kind. -/
theorem Node.keepsTargets_assign (s : Span) {target : Node} (value : Node)
    (h : target.isConst = true ∨ target.comesToName = false) :
    (Node.assign s target value).KeepsTargets :=
  h.imp_right fun hName answer => target.yieldsNoName_pending answer hName

theorem Node.keepsTargets_assign_atom (s t : Span) (a : Atom) (value : Node) :
    (Node.assign s (.atom t a) value).KeepsTargets := by
  refine keepsTargets_assign s value ?_
  cases a <;> first | exact .inl rfl | exact .inr rfl

/-- In any program a fixed tree normalizes to itself, and the program is as it was. -/
theorem Node.Fixed.normalize {n : Node} (h : n.Fixed .empty) {q : Program}
    (hTypes : q.types.coreFault? = none) (file : Option SourcePath) :
    q.normalize file n = (.ok n, q) := by
  obtain ⟨m, hRun, hNode⟩ := (h.node (answerRequire q.loader.files.length file)).exists_ok q
  rw [source_pending] at hNode
  cases hNode
  exact Program.normalize_eq_of_run hTypes hRun

/-- Normalization is a projection. Let a tree require no files and write no local variables, let no
target of an assignment but a constant come down to a constant or a variable, and no target of a
multiple assignment to a variable. If the tree normalizes, then what it normalizes to normalizes to
itself, in the program left behind and in every other one, and adds nothing to the program: no
temporary, no constant, no type and no symbol. -/
theorem normalize_projects {p p' : Program} {file : Option SourcePath} {root n : Node}
    (hRoot : root.Everywhere true Node.WritesNoLocal)
    (hTargets : root.Everywhere true Node.KeepsTargets)
    (h : p.normalize file root = (.ok n, p')) :
    (∀ file', p'.normalize file' n = (.ok n, p')) ∧
      ∀ q : Program, q.types.coreFault? = none → ∀ file', q.normalize file' n = (.ok n, q) := by
  obtain ⟨⟨st, hRun, -⟩, -, hTypes⟩ := Program.run_of_normalize h
  have hSettles := Node.settles_pending (answerRequire p.loader.files.length file) hRoot hTargets
  have hFixed : n.Fixed .empty := ((hSettles.node .empty p).of_ok hRun).2.2.fixed
  exact ⟨fun file' => hFixed.normalize hTypes file', fun q hTypes file' =>
    hFixed.normalize hTypes file'⟩

namespace Sample

/-- `def total(flag) unless flag then @item = [flag] end ; ::item = 1 end` -/
def guarding : Node := .define .nowhere .method total [⟨flag, none⟩] (some (.seq .nowhere [
  .cond .nowhere .whenFalse (readVar flag) (some
    (.assign .nowhere (.atom .nowhere (.field item)) (.array .nowhere [readVar flag] none))) none,
  .assign .nowhere (.globalConst .nowhere item) (.int .nowhere 1)]))

theorem everywhere_guarding {P : Node → Prop} (hRead : ∀ x, P (readVar x))
    (hGlue : ∀ n : Node, n.IsGlue → n.isVar = false → P n)
    (hAssign : ∀ a value, P (.assign .nowhere (.atom .nowhere a) value)) :
    guarding.Everywhere true P := by
  have hAtom : ∀ a, (Node.atom .nowhere a).Everywhere true P := fun a =>
    Node.everywhere_of_root (hGlue _ trivial rfl) nofun
  have hFlag : (readVar flag).Everywhere true P := Node.everywhere_of_root (hRead flag) nofun
  refine Node.everywhere_of_root (hGlue _ trivial rfl) (List.forall_mem_singleton.mpr ?_)
  refine Node.everywhere_of_root (hGlue _ trivial rfl) (List.forall_mem_cons.mpr
    ⟨?_, List.forall_mem_singleton.mpr ?_⟩)
  · refine Node.everywhere_of_root (hGlue _ trivial rfl) (List.forall_mem_cons.mpr
      ⟨hFlag, List.forall_mem_singleton.mpr ?_⟩)
    refine Node.everywhere_of_root (hAssign _ _) (List.forall_mem_cons.mpr
      ⟨hAtom _, List.forall_mem_singleton.mpr ?_⟩)
    exact Node.everywhere_of_root (hGlue _ trivial rfl) (List.forall_mem_singleton.mpr hFlag)
  · exact Node.everywhere_of_root (hAssign _ _) (List.forall_mem_cons.mpr
      ⟨hAtom _, List.forall_mem_singleton.mpr (hAtom _)⟩)

theorem guarding_projects : guarding.Everywhere true Node.WritesNoLocal ∧
    guarding.Everywhere true Node.KeepsTargets ∧
    ∃ n p', program.normalize none guarding = (.ok n, p') ∧
      p'.normalize none n = (.ok n, p') := by
  have hWrites : guarding.Everywhere true Node.WritesNoLocal := by
    refine everywhere_guarding (fun _ => rfl) (fun n hGlue hVar => ?_) fun _ _ => rfl
    cases n with
    | var => cases hVar
    | assign s target => cases target <;> first | rfl | exact hGlue.elim
    | multi | require => exact hGlue.elim
    | _ => trivial
  have hTargets : guarding.Everywhere true Node.KeepsTargets := by
    refine everywhere_guarding (fun _ => trivial) (fun n hGlue _ => ?_) fun _ _ =>
      Node.keepsTargets_assign_atom _ _ _ _
    cases n with
    | assign s target value =>
      cases target with
      | atom t a => exact Node.keepsTargets_assign_atom s t a value
      | _ => exact hGlue.elim
    | multi => exact hGlue.elim
    | _ => trivial
  obtain ⟨n, p', h⟩ : ∃ n p', program.normalize none guarding = (.ok n, p') := ⟨_, _, rfl⟩
  exact ⟨hWrites, hTargets, n, p', h, (normalize_projects hWrites hTargets h).1 none⟩

/-- `def total(flag) (::item) = flag end`, with a sequence of one statement as the target. -/
def constTarget : Node := .define .nowhere .method total [⟨flag, none⟩] (some
  (.assign .nowhere (.seq .nowhere [.globalConst .nowhere item]) (readVar flag)))

/-- The sequence comes down to the constant, and the value of a constant sees no parameters. -/
theorem const_target_normalizes_once : constTarget.Everywhere true Node.WritesNoLocal ∧
    ∃ n p', program.normalize none constTarget = (.ok n, p') ∧
      (p'.normalize none n).1 = .error (.error (.unbound "" .nowhere)) := by
  refine ⟨?_, _, _, rfl, rfl⟩
  refine Node.everywhere_of_root trivial (List.forall_mem_singleton.mpr ?_)
  refine Node.everywhere_of_root rfl (List.forall_mem_cons.mpr
    ⟨?_, List.forall_mem_singleton.mpr (Node.everywhere_of_root rfl nofun)⟩)
  refine Node.everywhere_of_root trivial (List.forall_mem_singleton.mpr ?_)
  exact Node.everywhere_of_root trivial nofun

end Sample

end CoreTree
