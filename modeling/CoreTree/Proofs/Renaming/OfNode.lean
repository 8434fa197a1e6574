import CoreTree.Proofs.CoreForm.Everywhere
import CoreTree.Proofs.Renaming.Literals
import CoreTree.Proofs.Renaming.Sugar
import CoreTree.Proofs.Runs.Weight

/-! # Trees side by side

A tree and the same tree under the symbols of another program are twins, construct by construct. The
tree may mention no type, because a type means nothing outside of its pool, and it may not require
files.
-/
namespace CoreTree
set_option autoImplicit false

/-! ## The names in a tree -/

def Atom.names : Atom → List Symbol
  | .temp x | .field x => [x]
  | .const path => path.names
  | _ => []

def Atom.texts : Atom → List Symbol
  | .str text => [text]
  | _ => []

namespace Node

/-- The names that a node holds itself, apart from its parts. -/
def headNames : Node → List Symbol
  | .atom _ a => a.names
  | .var _ v => [v.name]
  | .call _ _ name _ block => name :: block.elim [] (·.params)
  | .isA _ _ type => type.names
  | .define _ _ name params _ => name :: params.map (·.name)
  | .array _ _ type => type.elim [] (·.names)
  | .hash _ _ types => types.elim [] fun t => t.key.names ++ t.value.names
  | _ => []

/-- The literal texts that a node holds itself, apart from its parts. -/
def headTexts : Node → List Symbol
  | .atom _ a => a.texts
  | .regex _ text | .require _ text => [text]
  | _ => []

def HasName (n : Node) (x : Symbol) : Prop := ∃ m, n.Has m ∧ x ∈ m.headNames

def HasText (n : Node) (x : Symbol) : Prop := ∃ m, n.Has m ∧ x ∈ m.headTexts

end Node

namespace Pairing

variable (P : Pairing)

/-- The renaming of a tree without types. -/
def toRenaming : Renaming := ⟨P.rename, P.rename, id⟩

/-- What the node holds itself is known to both programs. -/
structure CoversHead (n : Node) : Prop where
  names : ∀ x ∈ n.headNames, x ∈ P.names
  texts : ∀ x ∈ n.headTexts, x ∈ P.texts
  types : ∀ s type, n ≠ .atom s (.generic type)
  requires : ∀ s path, n ≠ .require s path

def Covers (n : Node) : Prop := ∀ m, n.Has m → P.CoversHead m

variable {P} {p p' : Program} {n : Node} {answer answer' : RequireHandler}

theorem Covers.part (h : P.Covers n) {part : Node} (hPart : part ∈ n.parts) : P.Covers part :=
  fun m hm => h m (.of_part hPart hm)

variable (hLevel : P.Level p p')
include hLevel

theorem Level.sameName {x : Symbol} (hx : x ∈ P.names) :
    P.Same Renaming.name p p' x (P.rename x) := fun _ hg => (hLevel.name_of_mem hg hx).symm

theorem Level.samePath {path : ConstPath} (h : ∀ x ∈ path.names, x ∈ P.names) :
    P.Same ConstPath.rename p p' path (path.rename P.toRenaming) := fun g hg => by
  rw [ConstPath.rename, ConstPath.rename]
  exact congrArg (ConstPath.mk path.isGlobal) (List.map_congr_left fun x hx =>
    (hLevel.name_of_mem hg (h x hx)).symm)

theorem Level.sameAtom {s : Span} {a : Atom} (h : P.CoversHead (.atom s a)) :
    P.Same Atom.rename p p' a (a.rename P.toRenaming) := by
  intro g hg
  cases a with
  | str text => exact congrArg Atom.str (hg.texts text (h.texts text (.head _))).symm
  | temp x => exact congrArg Atom.temp (hLevel.sameName (h.names x (.head _)) g hg)
  | field x => exact congrArg Atom.field (hLevel.sameName (h.names x (.head _)) g hg)
  | const path => exact congrArg Atom.const (hLevel.samePath h.names g hg)
  | generic type => exact absurd rfl (h.types s type)
  | _ => rfl

/-! ## Twins -/

/-- Wherever the programs are on a level, the tree and what it is in the other are twins. -/
def TwinsAt (P : Pairing) (answer answer' : RequireHandler) (p p' : Program) (n : Node) : Prop :=
  P.Twin p p' (n.pending answer) ((n.rename P.toRenaming).pending answer')

omit hLevel in
theorem twins_of_option {o : Option Node} (h : ∀ n ∈ o, P.TwinsAt answer answer' p p' n) :
    P.TwinOptions p p' (pendingOption answer o)
      (pendingOption answer' (o.map (·.rename P.toRenaming))) := by
  cases o with
  | none =>
    rw [Option.map_none, pendingOption, pendingOption]
    exact .none
  | some n =>
    rw [Option.map_some, pendingOption, pendingOption]
    exact .some (h n rfl)

omit hLevel in
theorem twins_of_list {ns : List Node} (h : ∀ n ∈ ns, P.TwinsAt answer answer' p p' n) :
    P.TwinLists p p' (pendingList answer ns)
      (pendingList answer' (ns.map (·.rename P.toRenaming))) := by
  induction ns with
  | nil =>
    rw [List.map_nil, pendingList, pendingList]
    exact .nil
  | cons n ns ih =>
    rw [List.map_cons, pendingList, pendingList]
    exact .cons (h n (.head _)) (ih fun m hm => h m (.tail _ hm))

omit hLevel in
theorem twins_of_whens {ws : List (When Node)}
    (h : ∀ w ∈ ws, (∀ n ∈ w.patterns, P.TwinsAt answer answer' p p' n) ∧
      ∀ n ∈ w.body, P.TwinsAt answer answer' p p' n) :
    List.Forall₂ (P.TwinWhen p p') (pendingWhens answer ws)
      (pendingWhens answer' (ws.map (When.map (·.rename P.toRenaming)))) := by
  induction ws with
  | nil =>
    rw [List.map_nil, pendingWhens, pendingWhens]
    exact .nil
  | cons w ws ih =>
    obtain ⟨patterns, body⟩ := w
    obtain ⟨hPatterns, hBody⟩ := h _ (.head _)
    rw [List.map_cons, When.map, pendingWhens, pendingWhens]
    exact .cons ⟨twins_of_list hPatterns, twins_of_option hBody⟩ (ih fun w hw => h w (.tail _ hw))

omit hLevel in
theorem twins_of_params {ps : List (Param Node)} (hKnown : ∀ x ∈ ps.map (·.name), x ∈ P.names)
    (h : ∀ x ∈ ps, ∀ n ∈ x.default, P.TwinsAt answer answer' p p' n) :
    List.Forall₂ (P.TwinParam p p') (pendingParams answer ps)
      (pendingParams answer' (ps.map (Param.map P.rename (·.rename P.toRenaming)))) := by
  induction ps with
  | nil =>
    rw [List.map_nil, pendingParams, pendingParams]
    exact .nil
  | cons x ps ih =>
    obtain ⟨name, default⟩ := x
    obtain ⟨hName, hRest⟩ := List.forall_mem_cons.mp hKnown
    rw [List.map_cons, Param.map, pendingParams, pendingParams]
    exact .cons ⟨rfl, hName, twins_of_option (h _ (.head _))⟩
      (ih hRest fun x hx => h x (.tail _ hx))

omit hLevel in
theorem twins_of_entries {es : List (HashEntry Node)}
    (h : ∀ e ∈ es, P.TwinsAt answer answer' p p' e.key ∧ P.TwinsAt answer answer' p p' e.value) :
    P.TwinEntries p p' (pendingEntries answer es)
      (pendingEntries answer' (es.map (HashEntry.map (·.rename P.toRenaming)))) := by
  induction es with
  | nil =>
    rw [List.map_nil, pendingEntries, pendingEntries]
    exact .nil
  | cons e es ih =>
    obtain ⟨key, value⟩ := e
    obtain ⟨hKey, hValue⟩ := h _ (.head _)
    rw [List.map_cons, HashEntry.map, pendingEntries, pendingEntries]
    exact .cons ⟨hKey, hValue⟩ (ih fun e he => h e (.tail _ he))

/-- A node is a twin if its parts are. -/
theorem twin_of_parts (h : P.CoversHead n)
    (hParts : ∀ part ∈ n.parts, P.TwinsAt answer answer' p p' part) :
    P.TwinsAt answer answer' p p' n := by
  unfold TwinsAt
  cases n with
  | atom s a =>
    rw [Node.rename_atom, Node.pending, Node.pending]
    exact twin_atom hLevel s (hLevel.sameAtom h)
  | var s v =>
    rw [Node.rename_var, Node.pending, Node.pending]
    exact twin_var s (h.names v.name (.head _))
  | seq s stmts =>
    rw [Node.rename_seq, Node.pending, Node.pending]
    exact twin_seq s (twins_of_list hParts)
  | cond s form test body other =>
    rw [Node.rename_cond, Node.pending, Node.pending]
    exact twin_cond s form (hParts test (by simp))
      (twins_of_option fun n hn => hParts n (by simp [Option.mem_def.mp hn]))
      (twins_of_option fun n hn => hParts n (by simp [Option.mem_def.mp hn]))
  | loop s test body =>
    rw [Node.rename_loop, Node.pending, Node.pending]
    exact twin_loop s (hParts test (by simp))
      (twins_of_option fun n hn => hParts n (by simp [Option.mem_def.mp hn]))
  | choose s subject whens other =>
    rw [Node.rename_choose, Node.pending, Node.pending]
    refine twin_choose s (hParts subject (by simp)) (twins_of_whens fun w hw => ?_)
      (twins_of_option fun n hn => hParts n (by simp [Option.mem_def.mp hn]))
    refine ⟨fun n hn => hParts n ?_, fun n hn => hParts n ?_⟩
    · exact .tail _ (List.mem_append_left _ (List.mem_flatMap.mpr ⟨w, hw, by simp [hn]⟩))
    · exact .tail _ (List.mem_append_left _ (List.mem_flatMap.mpr
        ⟨w, hw, by simp [Option.mem_def.mp hn]⟩))
  | logic s op left right =>
    rw [Node.rename_logic, Node.pending, Node.pending]
    exact twin_logic s op (hParts left (by simp)) (hParts right (by simp))
  | jump s kind value =>
    rw [Node.rename_jump, Node.pending, Node.pending]
    exact twin_jump s kind (twins_of_option fun n hn => hParts n (by simp [Option.mem_def.mp hn]))
  | assign s target value =>
    rw [Node.rename_assign, Node.pending, Node.pending]
    exact twin_assign s (hParts target (by simp)) (hParts value (by simp))
  | multi s targets values =>
    rw [Node.rename_multi, Node.pending, Node.pending]
    exact twin_multi s (twins_of_list fun n hn => hParts n (by simp [hn]))
      (twins_of_list fun n hn => hParts n (by simp [hn]))
  | call s receiver name args block =>
    have hReceiver := twins_of_option (o := receiver) fun n hn =>
      hParts n (by simp [Option.mem_def.mp hn])
    have hName := hLevel.sameName (h.names name (.head _))
    have hArgs : P.TwinLists p p' (pendingList answer args) _ :=
      twins_of_list fun n hn => hParts n (by simp [hn])
    cases block with
    | none =>
      rw [Node.rename_call, Option.map_none, Node.pending, Node.pending]
      exact twin_call s hReceiver hName hArgs .none
    | some b =>
      rw [Node.rename_call, Option.map_some, Block.map, Node.pending, Node.pending]
      refine twin_call s hReceiver hName hArgs (.some ⟨rfl, fun x hx => h.names x (.tail _ hx), ?_⟩)
      exact twins_of_option fun n hn => hParts n (by simp [Option.mem_def.mp hn])
  | isA s subject type =>
    rw [Node.rename_isA, Node.pending, Node.pending]
    exact twin_isA s (hParts subject (by simp)) (hLevel.samePath h.names)
  | define s kind name params body =>
    rw [Node.rename_define, Node.pending, Node.pending]
    refine twin_define s kind (hLevel.sameName (h.names name (.head _)))
      (twins_of_params (fun x hx => h.names x (.tail _ hx)) fun x hx n hn => ?_)
      (twins_of_option fun n hn => hParts n (by simp [Option.mem_def.mp hn]))
    exact hParts n (List.mem_append_left _ (List.mem_filterMap.mpr ⟨x, hx, hn⟩))
  | interp s pieces =>
    rw [Node.rename_interp, Node.pending, Node.pending]
    exact twin_interp s (twins_of_list hParts)
  | range s first last exclusive =>
    rw [Node.rename_range, Node.pending, Node.pending]
    exact twin_range s exclusive (hParts first (by simp)) (hParts last (by simp))
  | regex s text =>
    rw [Node.rename_regex, Node.pending, Node.pending]
    exact twin_regex s (h.texts text (.head _))
  | array s elements type =>
    rw [Node.rename_array, Node.pending, Node.pending]
    refine twin_array s (twins_of_list hParts) fun g hg => ?_
    cases type with
    | none => rfl
    | some path => exact congrArg some (hLevel.samePath h.names g hg)
  | hash s entries types =>
    rw [Node.rename_hash, Node.pending, Node.pending]
    refine twin_hash s (twins_of_entries fun e he => ?_) fun g hg => ?_
    · exact ⟨hParts _ (List.mem_flatMap.mpr ⟨e, he, by simp⟩),
        hParts _ (List.mem_flatMap.mpr ⟨e, he, by simp⟩)⟩
    · cases types with
      | none => rfl
      | some t =>
        have hKey : P.Same ConstPath.rename p p' t.key _ :=
          hLevel.samePath fun x hx => h.names x (List.mem_append_left _ hx)
        have hValue : P.Same ConstPath.rename p p' t.value _ :=
          hLevel.samePath fun x hx => h.names x (List.mem_append_right _ hx)
        exact congrArg₂ (fun key value => some (HashTypes.mk key value)) (hKey g hg) (hValue g hg)
  | require s path => exact absurd rfl (h.requires s path)

theorem Covers.twins (h : P.Covers n) : P.TwinsAt answer answer' p p' n := by
  induction hWeight : n.weight using Nat.strongRecOn generalizing n with
  | _ w ih =>
    subst hWeight
    exact twin_of_parts hLevel (h n .root) fun part hPart =>
      ih _ (Node.weight_lt_of_mem_parts hPart) (h.part hPart) rfl

end Pairing

end CoreTree
