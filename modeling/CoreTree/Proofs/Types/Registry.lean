import CoreTree.Proofs.Atoms.Keeping
import CoreTree.Proofs.CoreForm.OfNode
import CoreTree.Proofs.Normal.History
import CoreTree.Proofs.Types.Printing

/-! # The registry of types is well founded

Whatever trees are normalized in a program, and whether they normalize or not, a registered type
mentions earlier types only, and a normalized tree mentions registered types only, at the time and
ever after. So there is an end to spelling out what a tree mentions, and nothing is missing.
-/
namespace CoreTree
set_option autoImplicit false

/-- The tree mentions no generic type. Only normalization makes these. -/
def Node.NoTypes (n : Node) : Prop := ∀ s type, ¬ n.Has (.atom s (.generic type))

/-- Whatever the loader loads is without types. -/
def Loader.NoTypes (l : Loader) : Prop :=
  ∀ place content names root names', l.content? place = some content →
    l.load names content = (.ok root, names') → root.NoTypes

theorem Node.noTypes_iff_generics {n : Node} : n.NoTypes ↔ n.generics = [] := by
  have hBelow := n.typesBelow_iff_generics 0
  rw [typesBelow_iff_has] at hBelow
  simpa [NoTypes, List.eq_nil_iff_forall_not_mem] using hBelow

theorem Node.NoTypes.typesBelow {n : Node} (h : n.NoTypes) (count : Nat) : n.TypesBelow count :=
  typesBelow_iff_has.mpr fun s type hHas => absurd hHas (h s type)

namespace Program

variable {p : Program} {trees : List Node}

/-- The types are ordered, and there are more and more of them. -/
def typeLaw : AtomLaw where
  sound p := p.types.Ordered ∧ p.loader.NoTypes
  later p q := p.types.types <+: q.types.types
  admits p := Atom.TypeBelow p.types.size
  refl p := List.prefix_refl _
  trans := List.IsPrefix.trans
  mono {p q a} h ha := by
    cases a with
    | generic type => exact Nat.lt_of_lt_of_le ha h.length_le
    | _ => trivial
  plain p a hTemp hType := by
    cases a with
    | generic type => exact absurd rfl (hType type)
    | _ => trivial
  freshTemp h := ⟨h, List.prefix_refl _, trivial⟩
  regexConstant text s h := by
    unfold regexConstant
    split <;> exact ⟨h, List.prefix_refl _⟩
  genericType base args h hArgs :=
    ⟨⟨h.1.intern hArgs, h.2⟩, TypePool.prefix_intern _ _, TypePool.index_intern_lt _ _⟩
  resolve {p} requested requestedFrom h := by
    obtain ⟨found, q, hResolve, hResolves⟩ := p.exists_resolves requested requestedFrom
    have hTypes := p.types_resolve requested requestedFrom
    rw [hResolve] at hTypes ⊢
    refine ⟨⟨hTypes ▸ h.1, ?_⟩, hTypes ▸ List.prefix_refl _, ?_⟩
    · cases hResolves with
      | refused _ hLoader => exact hLoader ▸ h.2
      | loaded | found => exact h.2
    · rintro f rfl
      cases hResolves with
      | found hNormal hContent hLoad => exact (h.2 _ _ _ _ _ hContent hLoad).typesBelow _
  track requires h := ⟨h, List.prefix_refl _⟩

/-- Of a program with a history, what is to be known about types. -/
structure TypesSound (p : Program) (trees : List Node) : Prop where
  sound : typeLaw.sound p
  trees : ∀ n ∈ trees, n.TypesBelow p.types.size

theorem TypesSound.after {q : Program} {result : Option Node} (h : p.TypesSound trees)
    (hAfter : (typeLaw.sound q ∧ typeLaw.later p q) ∧ ∀ n, result = some n → typeLaw.Admits q n) :
    q.TypesSound (result.toList ++ trees) where
  sound := hAfter.1.1
  trees := List.forall_mem_append.mpr ⟨fun n hn => hAfter.2 n (Option.mem_toList.mp hn),
    fun n hn => (h.trees n hn).mono hAfter.1.2.length_le⟩

theorem History.typesSound
    (h : p.History (fun _ root => root.NoTypes) Loader.NoTypes trees) : p.TypesSound trees := by
  have hOk : ∀ {r : Except NormalizeFailure Node} {n : Node}, r.toOption = some n → r = .ok n := by
    rintro (_ | _) n h
    · cases h
    · exact congrArg Except.ok (Option.some.inj h)
  induction h with
  | start hLoader => exact ⟨⟨TypePool.ordered_empty, hLoader⟩, nofun⟩
  | intern _ name ih => exact ⟨ih.sound, ih.trees⟩
  | reload _ hLoader ih => exact ⟨⟨ih.sound.1, hLoader⟩, ih.trees⟩
  | normalize _ hRoot file ih =>
    obtain ⟨hLater, hResult⟩ := keeps_normalize typeLaw ih.sound file (hRoot.typesBelow _)
    exact ih.after ⟨hLater, fun n hn => hResult n (hOk hn)⟩
  | normalizeFile _ hRoot file ih =>
    obtain ⟨hLater, hResult⟩ := keeps_normalizeFile typeLaw ih.sound file (hRoot.typesBelow _)
    exact ih.after ⟨hLater, fun n hn => hResult n (hOk hn)⟩

/-- After any history of trees without types, the registry is well founded: a type mentions types
with lower numbers only, at any depth of its expressions, and initializers and the trees that have
come of the history mention registered types only. So each of these trees is printed, whatever its
types lead to is registered, and the text of each type is spelled from the texts of the types that
it mentions, with no bound on the depth. -/
theorem types_well_founded
    (h : p.History (fun _ root => root.NoTypes) Loader.NoTypes trees) :
    (∀ type t, p.types.get? type = some t → ∀ e ∈ t.exprs, ∀ s inner,
      e.Has (.atom s (.generic inner)) → inner.index < type.index) ∧
    (∀ c ∈ p.constants, ∀ s type, c.value.Has (.atom s (.generic type)) →
      type.index < p.types.size) ∧
    (∀ n ∈ trees, ∀ s type, n.Has (.atom s (.generic type)) → type.index < p.types.size) ∧
    WellFounded p.types.Mentions ∧
    ∀ n ∈ trees, p.print n = .ok (n.print (.ofPool p.names p.types)) ∧
      ∀ outer ∈ n.generics, ∀ inner, Relation.ReflTransGen p.types.Mentions inner outer →
        ∃ t, p.types.get? inner = some t ∧ ∀ indent,
          (Wording.ofPool p.names p.types).typeText indent inner =
            TypePool.spelling (.ofPool p.names p.types) indent t := by
  obtain ⟨⟨hOrdered, -⟩, hTrees⟩ := h.typesSound
  refine ⟨fun type t ht e he => Node.typesBelow_iff_has.mp (hOrdered type t ht e he),
    fun c _ => Node.typesBelow_iff_has.mp ?_, fun n hn => Node.typesBelow_iff_has.mp (hTrees n hn),
    hOrdered.wellFounded_mentions,
    fun n hn => ⟨hOrdered.print_eq p.names (hTrees n hn), fun outer hOuter inner hReaches => ?_⟩⟩
  · exact typeLaw.admits_send (p := p) _ _ (AtomLaw.admits_globalConst _ _)
      (List.forall_mem_singleton.mpr (Node.atomsAll_atom trivial))
  · have hLt := hOrdered.index_lt_of_reflTransGen hReaches
      ((n.typesBelow_iff_generics _).mp (hTrees n hn) outer hOuter)
    obtain ⟨t, ht⟩ := TypePool.exists_get? hLt
    exact ⟨t, ht, fun indent => hOrdered.typeText_eq p.names ht indent⟩

end Program

namespace Sample

/-- `[[]]` -/
def nested : Node := .array .nowhere [.array .nowhere [] none] none

/-- What `nested` becomes. The outer type mentions the inner one. -/
def filled : Node := .seq .nowhere (Pending.arrayStatements .nowhere (.atom .nowhere (.generic ⟨1⟩))
  ⟨15⟩ [.seq .nowhere (Pending.arrayStatements .nowhere (.atom .nowhere (.generic ⟨0⟩)) ⟨14⟩ [])])

theorem nested_well_founded :
    let p := ((Program.init .initial .empty []).normalize none nested).2
    p.History (fun _ root => root.NoTypes) Loader.NoTypes [filled] ∧
      filled.generics = [⟨1⟩, ⟨0⟩] ∧ p.types.Mentions ⟨0⟩ ⟨1⟩ ∧
      (∃ t, p.types.get? ⟨0⟩ = some t) ∧
      p.print filled = .ok (filled.print (.ofPool p.names p.types)) := by
  intro p
  have hRoot : nested.NoTypes := Node.noTypes_iff_generics.mpr rfl
  have hLoader : Loader.empty.NoTypes := by simp [Loader.NoTypes, Loader.content?, Loader.empty]
  have hHistory : p.History (fun _ root => root.NoTypes) Loader.NoTypes [filled] :=
    (Program.History.start hLoader).normalize hRoot none
  have hGenerics : filled.generics = [⟨1⟩, ⟨0⟩] := rfl
  have hMentions : p.types.Mentions ⟨0⟩ ⟨1⟩ := ⟨_, rfl, .head _⟩
  obtain ⟨-, -, -, -, hPrint⟩ := Program.types_well_founded hHistory
  obtain ⟨hText, hTypes⟩ := hPrint filled (.head _)
  obtain ⟨t, ht, -⟩ := hTypes ⟨1⟩ (hGenerics ▸ .head _) ⟨0⟩ (.single hMentions)
  exact ⟨hHistory, hGenerics, hMentions, ⟨t, ht⟩, hText⟩

end Sample

end CoreTree
