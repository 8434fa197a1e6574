import CoreTree.Proofs.Atoms.Keeping
import CoreTree.Proofs.Temps.Allocated
import CoreTree.Proofs.Temps.Once

/-! # Temporaries that are still to come

Names that start with `#` are for temporaries, and nothing checks that a tree does without them. A
tree without the temporaries that are still to be allocated normalizes to one without those that are
still to be allocated then, so the next temporary is fresh to it.
-/
namespace CoreTree
set_option autoImplicit false

/-- The symbol is in the table, and its name is not that of a temporary above `k`. -/
def SymbolTable.Below (t : SymbolTable) (k : Nat) (x : Symbol) : Prop :=
  ∃ name, t.text? x = some name ∧ ∀ j, k < j → name ≠ Program.tempName j

namespace Program

variable {k : Nat} {p q : Program}

/-- What is read from a file adds symbols to the table, and no tree of a file has a temporary
above `k`. -/
def FilesBelow (p : Program) (k : Nat) : Prop :=
  ∀ file content names result names', p.loader.content? file = some content →
    p.names.names <+: names.names → p.loader.load names content = (result, names') →
    names.names <+: names'.names ∧
      ∀ root, result = .ok root → ∀ t, root.HasTemp t → names'.Below k t

theorem FilesBelow.later (h : p.FilesBelow k) (hLater : p.Later q) : q.FilesBelow k := by
  intro file content names result names' hContent hNames hLoad
  rw [hLater.loader] at hContent hLoad
  exact h file content names result names' hContent (hLater.names.trans hNames) hLoad

theorem old_of_below {x : Symbol} (h : p.names.Below k x) (hTemps : k ≤ p.temps) : p.Old x := by
  obtain ⟨name, hText, hName⟩ := h
  exact ⟨name, hText, fun j hj => hName j (Nat.lt_of_le_of_lt hTemps hj)⟩

theorem later_resolve (h : p.FilesBelow k) (requested : String)
    (requestedFrom : Option SourcePath) : p.Later (p.resolve requested requestedFrom).2 ∧
      ∀ found, (p.resolve requested requestedFrom).1 = .ok (some found) →
        ∀ t, found.root.HasTemp t → (p.resolve requested requestedFrom).2.names.Below k t := by
  unfold resolve
  split
  · exact ⟨.refl p, nofun⟩
  · rename_i file content hFound
    have hLoaded := fun result names' => h file content p.names result names'
      (find?_eq_some hFound).2 (List.prefix_refl _)
    split
    · exact ⟨.refl p, nofun⟩
    · split
      · exact ⟨.refl p, nofun⟩
      · split
        · rename_i root names hLoad
          obtain ⟨hNames, hRoot⟩ := hLoaded _ _ hLoad
          refine ⟨later_of_same rfl rfl hNames, ?_⟩
          rintro _ ⟨⟩
          exact hRoot root rfl
        · rename_i message names hLoad
          exact ⟨later_of_same rfl rfl (hLoaded _ _ hLoad).1, nofun⟩

/-- Where files have no temporaries above `k`, every temporary has been there before what comes
next. -/
def oldLaw (k : Nat) : AtomLaw where
  sound p := k ≤ p.temps ∧ p.FilesBelow k
  later := Later
  admits p a := ∀ t, a = .temp t → p.Old t
  refl := Later.refl
  trans := Later.trans
  mono h ha t ht := (ha t ht).later h
  plain _ _ hTemp _ t ht := absurd ht (hTemp t)
  freshTemp {p} h := by
    have hLater := later_freshTemp p
    refine ⟨⟨Nat.le_trans h.1 hLater.temps, h.2.later hLater⟩, hLater, ?_⟩
    rintro _ ⟨⟩
    exact old_of_mem_tempsTo hLater (mem_tempsTo_freshTemp p)
  regexConstant {p} text s h :=
    have hLater := p.later_regexConstant text s
    ⟨⟨Nat.le_trans h.1 hLater.temps, h.2.later hLater⟩, hLater⟩
  genericType base args h _ := ⟨h, later_genericType _ base args, nofun⟩
  resolve {p} requested requestedFrom h := by
    obtain ⟨hLater, hRoot⟩ := later_resolve h.2 requested requestedFrom
    have hTemps := Nat.le_trans h.1 hLater.temps
    refine ⟨⟨hTemps, h.2.later hLater⟩, hLater, fun found hFound n hn => ?_⟩
    cases n with
    | atom s a =>
      rintro t rfl
      exact old_of_below (hRoot found hFound t ⟨s, Node.reaches_true_iff.mp hn⟩) hTemps
    | _ => trivial
  track requires h := ⟨h, later_of_same rfl rfl (List.prefix_refl _)⟩

/-- All temporaries in the tree have been there before what comes next. -/
def AllOld (p : Program) (n : Node) : Prop := ∀ t, n.HasTemp t → p.Old t

theorem allOld_iff_admits {n : Node} : p.AllOld n ↔ (oldLaw k).Admits p n := by
  constructor
  · intro h m hm
    cases m with
    | atom s a =>
      rintro t rfl
      exact h t ⟨s, Node.reaches_true_iff.mp hm⟩
    | _ => trivial
  · rintro h t ⟨s, hHas⟩
    exact h _ (Node.reaches_true_iff.mpr hHas) t rfl

theorem AllOld.later {n : Node} (h : p.AllOld n) (hLater : p.Later q) : q.AllOld n :=
  fun t ht => (h t ht).later hLater

theorem AllOld.not_hasTemp {n : Node} (h : p.AllOld n) : ¬ n.HasTemp p.freshTemp.1 := fun hTemp =>
  not_old_of_mem_tempsTo (later_freshTemp p) (mem_tempsTo_freshTemp p) (h _ hTemp)

end Program

open Program

variable {p : Program} {st st' : NormalState} {k : Nat}

theorem Norm.Keeps.of_ok {L : AtomLaw} {α : Type} {act : Norm α} {Q : Program → α → Prop}
    (h : act.Keeps L st.program Q) (hSound : L.sound st.program) {a : α}
    (hRun : act.run st = .ok a st') : L.later st.program st'.program ∧ Q st'.program a := by
  have hKeeps := h st hSound (L.refl _)
  rw [hRun] at hKeeps
  exact ⟨hKeeps.1.2, hKeeps.2⟩

section

variable (hFiles : st.program.FilesBelow st.program.temps) (depth : Nat) (file : Option SourcePath)
include hFiles

/-- Trees that are normalized in turn have no temporaries that are still to come. -/
theorem allOld_nodes {ns ms : List Node} (hns : ∀ n ∈ ns, st.program.AllOld n)
    (hRun : (Pending.nodes (pendingList (answerRequire depth file) ns)).run st = .ok ms st') :
    st.program.Later st'.program ∧ ∀ m ∈ ms, st'.program.AllOld m := by
  have hKept := fun n (_ : n ∈ ns) =>
    Node.kept (keeps_answerRequire (oldLaw st.program.temps) depth file) n
  have hNodes := Code.keeps_nodes hKept fun n hn => allOld_iff_admits.mp (hns n hn)
  rw [Code.Keeps, denote_nodes] at hNodes
  obtain ⟨hLater, hMs⟩ := hNodes.of_ok ⟨Nat.le_refl _, hFiles⟩ hRun
  exact ⟨hLater, fun m hm => allOld_iff_admits.mpr (hMs m hm)⟩

theorem allOld_entryNodes {es fs : List (HashEntry Node)}
    (hes : ∀ e ∈ es, st.program.AllOld e.key ∧ st.program.AllOld e.value)
    (hRun : (Pending.entryNodes (pendingEntries (answerRequire depth file) es)).run st =
      .ok fs st') :
    st.program.Later st'.program ∧
      ∀ e ∈ fs, st'.program.AllOld e.key ∧ st'.program.AllOld e.value := by
  have hKept := fun n => Node.kept (keeps_answerRequire (oldLaw st.program.temps) depth file) n
  have hEntries := Code.keeps_entryNodes (fun e (_ : e ∈ es) => ⟨hKept e.key, hKept e.value⟩)
    fun e he => ⟨allOld_iff_admits.mp (hes e he).1, allOld_iff_admits.mp (hes e he).2⟩
  rw [Code.Keeps, denote_entryNodes] at hEntries
  obtain ⟨hLater, hFs⟩ := hEntries.of_ok ⟨Nat.le_refl _, hFiles⟩ hRun
  exact ⟨hLater, fun e he =>
    ⟨allOld_iff_admits.mpr (hFs e he).1, allOld_iff_admits.mpr (hFs e he).2⟩⟩

end

end CoreTree
