import CoreTree.Proofs.Runs.Steps
import CoreTree.Proofs.Runs.Unfold
import CoreTree.Proofs.Temps.Allocated
import CoreTree.Proofs.Temps.Allotted

/-! # Sharing out while the program grows

What a run allocates is shared out among the trees that it makes. Trees of earlier runs are held
meanwhile: the temporaries of a later run are new to them.
-/
namespace CoreTree
set_option autoImplicit false

open Node

variable {known known' : Symbol → Prop} {base p q : Program} {held ms : List Node} {n k : Node}
  {t : Symbol} {answer : RequireHandler} {α β : Type}

/-- From one program to a later one, what was allocated is shared out among the trees. -/
structure Program.Grown (known : Symbol → Prop) (p q : Program) (ms : List Node) : Prop where
  later : p.Later q
  allotted : Allotted known q.Own (p.tempsTo q) ms

namespace Program

theorem grown_nil (p : Program) : p.Grown known p [] :=
  ⟨.refl p, by rw [tempsTo_of_same rfl]; exact .nil⟩

namespace Grown

theorem perm (h : base.Grown known p ms) {ns : List Node} (hPerm : ms.Perm ns) :
    base.Grown known p ns := ⟨h.later, h.allotted.perm hPerm⟩

theorem mono (h : base.Grown known p ms) (hKnown : ∀ t, known t → known' t) :
    base.Grown known' p ms := ⟨h.later, h.allotted.mono hKnown fun _ => id⟩

/-- Every temporary in the trees has been there before what comes next. -/
theorem old (h : base.Grown known p ms) (hKnown : ∀ t, known t → base.Old t) {m : Node}
    (hm : m ∈ ms) (ht : m.HasTemp t) : p.Old t := by
  obtain hMade | hIs | hOwn := h.allotted.hasTemp hm ht
  · exact old_of_mem_tempsTo h.later hMade
  · exact (hKnown t hIs).later h.later
  · exact hOwn.old

theorem append (h : base.Grown known p held) (h' : p.Grown known q ms)
    (hKnown : ∀ t, known t → base.Old t) : base.Grown known q (ms ++ held) := by
  have hLater := h.later.trans h'.later
  refine ⟨hLater, ?_⟩
  have hOwn := h.allotted.mono (fun _ => id) fun t (ht : p.Own t) => ht.later h'.later
  have hBoth := hOwn.append h'.allotted (fun t ht hNew =>
    not_old_of_mem_tempsTo h'.later hNew (old_of_mem_tempsTo h.later ht)) ?_
  · rw [tempsTo_append h.later h'.later] at hBoth
    exact hBoth.perm List.perm_append_comm
  · rw [tempsTo_append h.later h'.later]
    exact fun t ht => ⟨fun hIs => not_old_of_mem_tempsTo hLater ht (hKnown t hIs),
      not_own_of_mem_tempsTo hLater ht⟩

/-- A later program without new temporaries. -/
theorem quiet (h : base.Grown known p held) (hKnown : ∀ t, known t → base.Old t)
    (hLater : p.Later q) (hTemps : p.tempsTo q = []) : base.Grown known q held := by
  have hNil : p.Grown known q [] := ⟨hLater, by rw [hTemps]; exact .nil⟩
  exact h.append hNil hKnown

theorem replace (h : base.Grown known p (ms ++ held)) (hBuilt : BuiltOf (fun _ => False) ms k) :
    base.Grown known p (k :: held) := ⟨h.later, h.allotted.replace hBuilt⟩

theorem of_parts (h : base.Grown known p (k.parts ++ held)) (hTemp : k.temp? = none)
    (hClosed : k.closedParts = []) : base.Grown known p (k :: held) :=
  h.replace (builtOf_of_parts rfl hTemp hClosed)

theorem new (h : base.Grown known p held) (hNew : ∀ t, ¬ k.HasTemp t) :
    base.Grown known p (k :: held) := by
  rw [← List.nil_append held] at h
  exact h.replace (builtOf_new fun t ht => (hNew t ht).elim)

/-- A fresh temporary is saved in the tree that some trees are put together to. -/
theorem save (h : base.Grown known p (ms ++ held)) (hKnown : ∀ t, known t → base.Old t)
    (hBuilt : BuiltOf (· = p.freshTemp.1) ms k)
    (hSaves : (∀ m ∈ ms, ¬ m.HasTemp p.freshTemp.1) → k.Saves p.freshTemp.1) :
    base.Grown known p.freshTemp.2 (k :: held) := by
  have hFresh : ¬ p.Old p.freshTemp.1 := not_old_of_mem_tempsTo (later_freshTemp p)
    (by rw [tempsTo_freshTemp]; exact .head _)
  obtain ⟨hMs, hHeld⟩ := List.forall_mem_append.mp fun m hm ht => hFresh (h.old hKnown hm ht)
  have hLater := h.later.trans (later_freshTemp p)
  refine ⟨hLater, ?_⟩
  have hOwn := h.allotted.mono (fun _ => id) fun t (ht : p.Own t) => ht.later (later_freshTemp p)
  refine hOwn.save hBuilt (hSaves hMs) ?_ hHeld (fun _ => .inr) fun x => ?_
  · exact fun hMem => hFresh (old_of_mem_tempsTo h.later hMem)
  · rw [← tempsTo_append h.later (later_freshTemp p), tempsTo_freshTemp, List.mem_append,
      List.mem_singleton, or_comm]

end Grown

end Program

/-! ## Code that shares out -/

/-- The trees of files have temporaries of their own only, and what is read from a file adds symbols
to the table. -/
def Program.TidyFiles (p : Program) : Prop :=
  ∀ file content names root names', p.loader.content? file = some content →
    p.names.names <+: names.names → p.loader.load names content = (.ok root, names') →
    names.names <+: names'.names ∧ ∀ t, root.HasTemp t → names'.Own t

theorem Program.TidyFiles.later (h : p.TidyFiles) (hLater : p.Later q) : q.TidyFiles := by
  intro file content names root names' hContent hNames hLoad
  rw [hLater.loader] at hContent hLoad
  exact h file content names root names' hContent (hLater.names.trans hNames) hLoad

namespace Code

/-- If the code succeeds, then in a later program, and `Q` holds of what it gives. -/
def LeadsTo (answer : RequireHandler) (p : Program) (c : Code α) (Q : Program → α → Prop) : Prop :=
  p.TidyFiles → ∀ scope, (c.denote answer).Ensures ⟨p, scope⟩ True fun a st =>
    p.Later st.program ∧ Q st.program a

variable {c : Code α} {Q : Program → α → Prop} {R : Program → β → Prop}

theorem leadsTo_pure {a : α} (h : Q p a) : (Pure.pure a : Code α).LeadsTo answer p Q :=
  fun _ _ => ⟨.refl p, h⟩

theorem LeadsTo.bind {f : α → Code β} (h : c.LeadsTo answer p Q)
    (hNext : ∀ a q, p.Later q → Q q a → (f a).LeadsTo answer q R) : (c >>= f).LeadsTo answer p R :=
  fun hFiles scope => Norm.Ensures.bind (h hFiles scope) fun a st ha =>
    (hNext a st.program ha.1 ha.2 (hFiles.later ha.1) st.scope).mono id fun _ _ hb =>
      ⟨ha.1.trans hb.1, hb.2⟩

theorem LeadsTo.weaken {Q' : Program → α → Prop} (h : c.LeadsTo answer p Q)
    (hQ : ∀ q a, p.Later q → Q q a → Q' q a) : c.LeadsTo answer p Q' := fun hFiles scope =>
  (h hFiles scope).mono id fun a st ha => ⟨ha.1, hQ st.program a ha.1 ha.2⟩

/-! Steps that call nothing -/

theorem leadsTo_getScope : getScope.LeadsTo answer p fun q _ => q = p := fun _ _ => ⟨.refl p, rfl⟩

theorem leadsTo_setScope (scope : Scope) : (setScope scope).LeadsTo answer p fun q _ => q = p :=
  fun _ _ => ⟨.refl p, rfl⟩

theorem leadsTo_noteBridges (bridges : List Bridge) :
    (noteBridges bridges).LeadsTo answer p fun q _ => q = p := fun _ _ => ⟨.refl p, rfl⟩

theorem leadsTo_noteParams (params : List Symbol) :
    (noteParams params).LeadsTo answer p fun q _ => q = p := fun _ _ => ⟨.refl p, rfl⟩

theorem leadsTo_write (v : Var) : (Code.act (.write v)).LeadsTo answer p fun q _ => q = p :=
  fun _ _ => ⟨.refl p, rfl⟩

theorem leadsTo_useVar (s : Span) (v : Var) : (useVar s v).LeadsTo answer p fun q _ => q = p := by
  unfold useVar
  split
  · exact leadsTo_write v
  · intro _ scope
    have hRun : ((Code.act (.read s v)).denote answer).run ⟨p, scope⟩ = _ :=
      Act.run_read s v ⟨p, scope⟩
    rw [Norm.Ensures, hRun]
    cases scope.readVersion? v.name with
    | none => trivial
    | some version => exact ⟨.refl p, rfl⟩

theorem leadsTo_freshTemp :
    freshTemp.LeadsTo answer p fun q t => q = p.freshTemp.2 ∧ t = p.freshTemp.1 :=
  fun _ _ => ⟨Program.later_freshTemp p, rfl, rfl⟩

theorem leadsTo_regexConstant (text : Symbol) (s : Span) :
    (Code.act (.allocate (Norm.onProgram (·.regexConstant text s))
      (Norm.allocating_onProgram fun p => p.extends_regexConstant text s))).LeadsTo answer p
        fun q _ => p.tempsTo q = [] :=
  fun _ _ => ⟨p.later_regexConstant text s,
    Program.tempsTo_of_same (p.temps_regexConstant text s)⟩

theorem leadsTo_genericType (base : Symbol) (args : List TypeArg) :
    (genericType base args).LeadsTo answer p fun q _ => p.tempsTo q = [] :=
  fun _ _ => ⟨p.later_genericType base args, Program.tempsTo_of_same rfl⟩

end Code

end CoreTree
