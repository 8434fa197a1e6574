import CoreTree.Proofs.Renaming.Registries
import CoreTree.Proofs.Renaming.Scopes

/-! # Two programs side by side

Two programs in which the same tree is normalized register things at the same pace, from different
numbers on. What comes of it in one is what comes of it in the other under every renaming that fits
the two. More is asked of a renaming as the programs grow, so this stays true.
-/
namespace CoreTree
set_option autoImplicit false

/-- The programs had `first` and `second` temporaries when they were set against each other. The
names of the tree, and its literal texts, have symbols in both. -/
structure Pairing where
  first : Nat
  second : Nat
  rename : Symbol → Symbol
  names : Set Symbol
  texts : Set Symbol
  increasing : Increasing rename names

namespace Pairing

variable (P : Pairing) {p p' q q' r r' : Program} {g : Renaming}

/-- As many temporaries have been allocated since in one program as in the other, and what is known
of the tree is spelled in the same way. -/
structure Level (p p' : Program) : Prop where
  temps : ∃ count, p.temps = P.first + count ∧ p'.temps = P.second + count
  keyed : p.Keyed
  keyed' : p'.Keyed
  names : ∀ x ∈ P.names, ∃ name, p.names.text? x = some name ∧
    p'.names.text? (P.rename x) = some name ∧ name.toList.head? ≠ some '#'
  texts : ∀ x ∈ P.texts, ∃ text, p.names.text? x = some text ∧
    p'.names.text? (P.rename x) = some text

/-- The renaming takes each name, text and type to the one that corresponds. -/
structure Fits (p p' : Program) (g : Renaming) : Prop where
  names : ∀ x x', Program.SameName P.first P.second p p' x x' → g.name x = x'
  texts : ∀ x ∈ P.texts, g.text x = P.rename x
  types : ∀ k k', SameType g.name g.text p.types p'.types k k' → g.type k = k'

def Always (p p' : Program) (Q : Renaming → Prop) : Prop := ∀ g, P.Fits p p' g → Q g

/-- The programs have grown, and are on a level again. -/
structure Reaches (p p' q q' : Program) : Prop where
  first : p.Grows q
  second : p'.Grows q'
  level : P.Level q q'

variable {P}

theorem Level.refl (h : P.Level p p') : P.Reaches p p' p p' := ⟨.refl p, .refl p', h⟩

theorem Reaches.trans (h : P.Reaches p p' q q') (h' : P.Reaches q q' r r') :
    P.Reaches p p' r r' := ⟨h.first.trans h'.first, h.second.trans h'.second, h'.level⟩

theorem Fits.of_reaches (hg : P.Fits q q' g) (h : P.Reaches p p' q q') : P.Fits p p' g where
  names x x' hSame := hg.names x x' (hSame.grows h.first h.second)
  texts := hg.texts
  types k k' hSame := hg.types k k' (hSame.grows h.first h.second)

theorem Level.grows (h : P.Level p p') (hp : p.Grows q) (hp' : p'.Grows q') (hq : q.Keyed)
    (hq' : q'.Keyed) (hTemps : ∃ count, q.temps = P.first + count ∧ q'.temps = P.second + count) :
    P.Reaches p p' q q' where
  first := hp
  second := hp'
  level :=
    { temps := hTemps
      keyed := hq
      keyed' := hq'
      names := fun x hx =>
        let ⟨name, hText, hText', hOwn⟩ := h.names x hx
        ⟨name, hp.text? hText, hp'.text? hText', hOwn⟩
      texts := fun x hx =>
        let ⟨text, hText, hText'⟩ := h.texts x hx
        ⟨text, hp.text? hText, hp'.text? hText'⟩ }

/-! ## Renamings that fit -/

/-- Once names and texts are renamed, there is a renaming of types. -/
theorem exists_type (hKeyed : p'.Keyed) {name text : Symbol → Symbol}
    (hName : ∀ x x', Program.SameName P.first P.second p p' x x' → name x = x')
    (hText : ∀ x ∈ P.texts, text x = P.rename x) :
    ∃ type, P.Fits p p' ⟨name, text, type⟩ := by
  classical
  refine ⟨fun k => if h : ∃ k', SameType name text p.types p'.types k k' then h.choose else k,
    hName, hText, fun k k' hSame => ?_⟩
  have hSome : ∃ k', SameType name text p.types p'.types k k' := ⟨k', hSame⟩
  exact (dif_pos hSome).trans (hSome.choose_spec.unique hKeyed.types hSame)

theorem Level.exists_fits (h : P.Level p p') : ∃ g, P.Fits p p' g := by
  obtain ⟨name, hName⟩ := Program.exists_perm_of_keyed h.keyed h.keyed' P.first P.second
  obtain ⟨type, hFits⟩ := exists_type h.keyed' hName fun _ _ => rfl
  exact ⟨_, hFits⟩

/-- What does not speak of the renaming is true. -/
theorem Always.elim {Q : Prop} (h : P.Always p p' fun _ => Q) (hLevel : P.Level p p') : Q := by
  obtain ⟨g, hg⟩ := hLevel.exists_fits
  exact h g hg

theorem Level.name_of_mem (h : P.Level p p') (hg : P.Fits p p' g) {x : Symbol}
    (hx : x ∈ P.names) : g.name x = P.rename x := by
  obtain ⟨name, hText, hText', hOwn⟩ := h.names x hx
  exact hg.names x _ (.own hText hText' hOwn)

theorem Fits.common (hg : P.Fits p p' g) {x : Symbol} (hx : x.id < commonNames.length) :
    g.name x = x := by
  have hOwn : ∀ name ∈ commonNames, name.toList.head? ≠ some '#' := by decide
  have hText : commonNames[x.id]? = some commonNames[x.id] := List.getElem?_eq_getElem hx
  exact hg.names x x (.own (p.names.text?_of_common hText) (p'.names.text?_of_common hText)
    (hOwn _ (List.getElem_mem hx)))

/-- If what is said depends on how some types are renamed, then these types correspond to others:
otherwise a renaming that fits could take them elsewhere. -/
theorem Always.sameType {Q : Renaming → Prop} (h : P.Always p p' Q) (hg : P.Fits p p' g)
    (types : List TypeId)
    (hDepends : ∀ type, Q g → Q { g with type } → ∀ k ∈ types, type k = g.type k) :
    ∀ k ∈ types, SameType g.name g.text p.types p'.types k (g.type k) := by
  classical
  intro k hk
  by_contra hNot
  have hNone : ∀ k', ¬ SameType g.name g.text p.types p'.types k k' := fun k' hSame =>
    hNot (hg.types k k' hSame ▸ hSame)
  let elsewhere : TypeId := ⟨(g.type k).index + 1⟩
  have hOther : P.Fits p p' { g with type := Function.update g.type k elsewhere } := by
    refine ⟨hg.names, hg.texts, fun j k' hSame => ?_⟩
    have hNe : j ≠ k := by
      rintro rfl
      exact hNone k' hSame
    exact (Function.update_of_ne hNe ..).trans (hg.types j k' hSame)
  have hSame := hDepends _ (h g hg) (h _ hOther) k hk
  rw [Function.update_self] at hSame
  exact absurd (congrArg TypeId.index hSame) (Nat.succ_ne_self _)

/-- The types in a tree that is in both programs correspond. -/
theorem Always.generics {n n' : Node} (h : P.Always p p' fun g => n' = n.rename g)
    (hg : P.Fits p p' g) :
    ∀ k ∈ n.generics, SameType g.name g.text p.types p'.types k (g.type k) :=
  h.sameType hg n.generics fun _ hEq hEq' => n.rename_eq_iff.mp (hEq'.symm.trans hEq)

/-! ## Registering side by side -/

theorem Level.freshTemp (h : P.Level p p') :
    P.Reaches p p' p.freshTemp.2 p'.freshTemp.2 ∧
      P.Always p.freshTemp.2 p'.freshTemp.2 fun g => p'.freshTemp.1 = g.name p.freshTemp.1 := by
  obtain ⟨count, hTemps, hTemps'⟩ := h.temps
  refine ⟨h.grows p.grows_freshTemp p'.grows_freshTemp h.keyed.freshTemp h.keyed'.freshTemp
    ⟨count + 1, congrArg (· + 1) hTemps, congrArg (· + 1) hTemps'⟩, fun g hg => ?_⟩
  exact (hg.names _ _ (.temp (hTemps ▸ p.text?_freshTemp) (hTemps' ▸ p'.text?_freshTemp))).symm

theorem Level.regexConstant (h : P.Level p p') {text : Symbol} (hText : text ∈ P.texts)
    (s : Span) :
    P.Reaches p p' (p.regexConstant text s).2 (p'.regexConstant (P.rename text) s).2 ∧
      P.Always (p.regexConstant text s).2 (p'.regexConstant (P.rename text) s).2 fun g =>
        (p'.regexConstant (P.rename text) s).1 = g.name (p.regexConstant text s).1 := by
  have hGrows := p.grows_regexConstant text s
  have hGrows' := p'.grows_regexConstant (P.rename text) s
  have hTemps : ∀ (p : Program) (text : Symbol), (p.regexConstant text s).2.temps = p.temps := by
    intro p text
    obtain ⟨_, -, -, hEq⟩ | ⟨-, hEq⟩ := p.regexConstant_cases text s <;> rw [hEq]
    rfl
  refine ⟨h.grows hGrows hGrows' (h.keyed.regexConstant text s) (h.keyed'.regexConstant _ s)
    (by rw [hTemps, hTemps]; exact h.temps), fun g hg => ?_⟩
  obtain ⟨c, hc, rfl, hName⟩ := p.exists_regexConstant text s
  obtain ⟨c', hc', hText', hName'⟩ := p'.exists_regexConstant (P.rename c.text) s
  obtain ⟨regex, hRegex, hRegex'⟩ := h.texts c.text hText
  rw [hName, hName']
  exact (hg.names _ _ (.constant hc hc' (hGrows.text? hRegex)
    (hText' ▸ hGrows'.text? hRegex'))).symm

theorem Level.genericType (h : P.Level p p') {base base' : Symbol} {args args' : List TypeArg}
    (hType : P.Always p p' fun g =>
      GenericType.mk base' args' = (GenericType.mk base args).rename g) :
    P.Reaches p p' (p.genericType base args).2 (p'.genericType base' args').2 ∧
      P.Always (p.genericType base args).2 (p'.genericType base' args').2 fun g =>
        (p'.genericType base' args').1 = g.type (p.genericType base args).1 := by
  have hReaches := h.grows (p.grows_genericType base args) (p'.grows_genericType base' args')
    (h.keyed.genericType base args) (h.keyed'.genericType base' args') h.temps
  refine ⟨hReaches, fun g hg => (hg.types _ _ ?_).symm⟩
  have hEarlier := hg.of_reaches hReaches
  have hContent : (p'.genericType base' args').2.types.get? (p'.genericType base' args').1 =
      some ((GenericType.mk base args).rename ⟨g.name, g.text, g.type⟩) :=
    hType g hEarlier ▸ TypePool.get?_intern _ _
  have hInner := hType.sameType hEarlier
    ((GenericType.mk base args).exprs.flatMap Node.generics) fun type hEq hEq' k hk => by
      obtain ⟨e, he, hk⟩ := List.mem_flatMap.mp hk
      exact (GenericType.rename_eq_iff _).mp (hEq'.symm.trans hEq) e he k hk
  exact .intro (TypePool.get?_intern _ _) hContent fun e he k hk =>
    (hInner k (List.mem_flatMap.mpr ⟨e, he, hk⟩)).grows hReaches.first hReaches.second

end Pairing

end CoreTree
