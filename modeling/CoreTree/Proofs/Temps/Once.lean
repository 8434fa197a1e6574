import CoreTree.Proofs.Runs.Sugar
import CoreTree.Proofs.Runs.Weight
import CoreTree.Proofs.Temps.Traces

/-! # Trees that assign a temporary once

A tree saves a temporary if it assigns it at one place only, and if every read of it comes after
this place: behind it in the same sequence, or in the branches of the conditional whose test it is.
Nothing else in the tree mentions the temporary.
-/
namespace CoreTree
set_option autoImplicit false

namespace Node

variable {x t : Symbol} {n m : Node}

def HasTemp (n : Node) (x : Symbol) : Prop := ∃ s, n.Has (.temp s x)

def temp? : Node → Option Symbol
  | .atom _ (.temp t) => some t
  | _ => none

theorem temp?_eq_some_iff : n.temp? = some x ↔ ∃ s, n = .temp s x := by
  constructor
  · intro h
    unfold temp? at h
    split at h
    · cases h
      exact ⟨_, rfl⟩
    · cases h
  · rintro ⟨s, rfl⟩
    rfl

theorem hasTemp_iff : n.HasTemp x ↔ n.temp? = some x ∨ ∃ part ∈ n.parts, part.HasTemp x := by
  rw [temp?_eq_some_iff]
  constructor
  · rintro ⟨s, h⟩
    obtain h | ⟨part, hPart, h⟩ := h.cases_root
    · exact .inl ⟨s, h.symm⟩
    · exact .inr ⟨part, hPart, s, h⟩
  · rintro (⟨s, rfl⟩ | ⟨part, hPart, s, h⟩)
    · exact ⟨s, .root⟩
    · exact ⟨s, .of_part hPart h⟩

theorem HasTemp.of_part (hPart : m ∈ n.parts) (h : m.HasTemp x) : n.HasTemp x :=
  hasTemp_iff.mpr (.inr ⟨m, hPart, h⟩)

theorem HasTemp.of_has (hHas : n.Has m) (h : m.HasTemp x) : n.HasTemp x := by
  induction hHas with
  | root => exact h
  | part _ hPart ih => exact ih (.of_part hPart h)

theorem hasTemp_temp {s : Span} : (temp s t).HasTemp x ↔ x = t := by
  rw [hasTemp_iff]
  simp [temp?, temp, eq_comm]

theorem not_hasTemp_of_parts (hTemp : n.temp? = none)
    (hParts : ∀ part ∈ n.parts, ¬ part.HasTemp x) : ¬ n.HasTemp x := by
  rw [hasTemp_iff, hTemp]
  rintro (hEq | ⟨part, hPart, h⟩)
  · cases hEq
  · exact hParts part hPart h

/-! ## Assignments of temporaries -/

/-- The temporaries that the node itself assigns. -/
def assigned : Node → List Symbol
  | .assign _ target _ => target.temp?.toList
  | .multi _ targets _ => targets.filterMap temp?
  | _ => []

/-- The temporaries that are assigned in the tree, as often as they are. -/
def saved (n : Node) : List Symbol := n.assigned ++ n.parts.attach.flatMap fun m => m.1.saved
termination_by n.weight
decreasing_by exact weight_lt_of_mem_parts m.2

theorem saved_eq (n : Node) : n.saved = n.assigned ++ n.parts.flatMap saved := by
  rw [saved]
  simp only [List.flatMap_subtype, List.unattach_attach]

theorem mem_saved_iff : x ∈ n.saved ↔ ∃ m, n.Has m ∧ x ∈ m.assigned := by
  induction hWeight : n.weight using Nat.strongRecOn generalizing n with
  | _ w ih =>
    subst hWeight
    rw [saved_eq, List.mem_append, List.mem_flatMap]
    constructor
    · rintro (h | ⟨part, hPart, h⟩)
      · exact ⟨n, .root, h⟩
      · obtain ⟨m, hHas, hm⟩ := (ih _ (weight_lt_of_mem_parts hPart) rfl).mp h
        exact ⟨m, .of_part hPart hHas, hm⟩
    · rintro ⟨m, hHas, hm⟩
      obtain rfl | ⟨part, hPart, hHas⟩ := hHas.cases_root
      · exact .inl hm
      · exact .inr ⟨part, hPart, (ih _ (weight_lt_of_mem_parts hPart) rfl).mpr ⟨m, hHas, hm⟩⟩

/-- The parts of a node in which no temporary from elsewhere is read: the targets of an assignment,
and all that a definition holds. -/
def closedParts : Node → List Node
  | .assign _ target _ => [target]
  | .multi _ targets _ => targets
  | .define _ _ _ params body => params.filterMap (·.default) ++ body.toList
  | _ => []

theorem closedParts_subset (n : Node) : n.closedParts ⊆ n.parts := by
  cases n with
  | assign s target value => simp [closedParts]
  | multi s targets values => exact List.subset_append_left _ _
  | define => exact List.Subset.refl _
  | _ => exact List.nil_subset _

theorem hasTemp_of_mem_assigned (h : x ∈ n.assigned) : ∃ c ∈ n.closedParts, c.temp? = some x := by
  cases n with
  | assign s target value => exact ⟨target, .head _, Option.mem_toList.mp h⟩
  | multi s targets values => exact List.mem_filterMap.mp h
  | _ => cases h

/-- If the tree mentions the temporary, it only reads it, and not inside of a definition. -/
def OnlyReads (x : Symbol) (n : Node) : Prop :=
  n.Everywhere true fun m => ∀ c ∈ m.closedParts, ¬ c.HasTemp x

theorem onlyReads_of_not_hasTemp (h : ¬ n.HasTemp x) : n.OnlyReads x := fun m hm _ hc hTemp =>
  h (.of_has (reaches_true_iff.mp hm) (.of_part (closedParts_subset m hc) hTemp))

theorem onlyReads_atom (s : Span) (a : Atom) : (atom s a).OnlyReads x :=
  everywhere_of_root nofun nofun

theorem onlyReads_send (s : Span) (name : Symbol) {receiver : Node} {args : List Node}
    (hReceiver : receiver.OnlyReads x) (hArgs : ∀ m ∈ args, m.OnlyReads x) :
    (send s receiver name args).OnlyReads x := by
  refine everywhere_of_root nofun fun part hPart => ?_
  obtain rfl | hPart : part = receiver ∨ part ∈ args := by simpa [send] using hPart
  · exact hReceiver
  · exact hArgs part hPart

theorem OnlyReads.of_has (h : n.OnlyReads x) (hHas : n.Has m) : m.OnlyReads x := by
  intro k hk
  refine h k ?_
  induction hk with
  | root => exact reaches_true_iff.mpr hHas
  | part _ hOpen hPart ih => exact .part ih hOpen hPart

theorem OnlyReads.save {s s' : Span} (h : n.OnlyReads x) (hx : x ≠ t) :
    (assign s (temp s' t) n).OnlyReads x := by
  refine everywhere_of_root (List.forall_mem_singleton.mpr ?_) (List.forall_mem_cons.mpr
    ⟨onlyReads_of_not_hasTemp ?_, List.forall_mem_singleton.mpr h⟩)
  all_goals exact fun hTemp => hx (hasTemp_temp.mp hTemp)

theorem OnlyReads.not_mem_saved (h : n.OnlyReads x) : x ∉ n.saved := by
  intro hMem
  obtain ⟨m, hHas, hm⟩ := mem_saved_iff.mp hMem
  obtain ⟨c, hc, hTemp⟩ := hasTemp_of_mem_assigned hm
  exact h m (reaches_true_iff.mpr hHas) c hc (hasTemp_iff.mpr (.inl hTemp))

/-! ## One assignment -/

inductive Saves (x : Symbol) : Node → Prop where
  | save {s s' : Span} {value : Node} (hValue : ¬ value.HasTemp x) :
    Saves x (.assign s (.temp s' x) value)
  | seq {s s₁ s₂ : Span} {before after : List Node} {value : Node}
    (hBefore : ∀ m ∈ before, ¬ m.HasTemp x) (hValue : ¬ value.HasTemp x)
    (hAfter : ∀ m ∈ after, m.OnlyReads x) :
    Saves x (.seq s (before ++ .assign s₁ (.temp s₂ x) value :: after))
  | cond {s s₁ s₂ : Span} {form : CondForm} {value : Node} {body other : Option Node}
    (hValue : ¬ value.HasTemp x) (hBranches : ∀ m ∈ body.toList ++ other.toList, m.OnlyReads x) :
    Saves x (.cond s form (.assign s₁ (.temp s₂ x) value) body other)
  | part {n part : Node} {before after : List Node} (hParts : n.parts = before ++ part :: after)
    (h : Saves x part) (hRest : ∀ m ∈ before ++ after, ¬ m.HasTemp x) : Saves x n

theorem not_saves_of_parts_nil (hParts : n.parts = []) : ¬ n.Saves x := by
  intro h
  cases h with
  | save | seq | cond => simp at hParts
  | part hSplit =>
    rw [hSplit] at hParts
    simp at hParts

theorem count_saved_eq_zero (h : n.OnlyReads x) : n.saved.count x = 0 :=
  List.count_eq_zero_of_not_mem h.not_mem_saved

theorem count_flatMap_saved_eq_zero {ns : List Node} (h : ∀ m ∈ ns, m.OnlyReads x) :
    (ns.flatMap saved).count x = 0 := by
  refine List.count_eq_zero_of_not_mem fun hMem => ?_
  obtain ⟨m, hm, hMem⟩ := List.mem_flatMap.mp hMem
  exact (h m hm).not_mem_saved hMem

theorem count_saved_save {s s' : Span} {value : Node} (hValue : ¬ value.HasTemp x) :
    (assign s (temp s' x) value).saved.count x = 1 := by
  have hTarget : (temp s' x).saved = [] := by rw [saved_eq]; rfl
  have hAssigned : (assign s (temp s' x) value).assigned = [x] := rfl
  rw [saved_eq, hAssigned, parts, List.flatMap_cons, hTarget, List.flatMap_singleton]
  simp [count_saved_eq_zero (onlyReads_of_not_hasTemp hValue)]

theorem Saves.count_saved (h : n.Saves x) : n.saved.count x = 1 := by
  have hAbsent : ∀ {ns : List Node}, (∀ m ∈ ns, ¬ m.HasTemp x) →
      (ns.flatMap saved).count x = 0 := fun h =>
    count_flatMap_saved_eq_zero fun m hm => onlyReads_of_not_hasTemp (h m hm)
  induction h with
  | save hValue => exact count_saved_save hValue
  | seq hBefore hValue hAfter =>
    rw [saved_eq]
    simp [assigned, hAbsent hBefore, count_saved_save hValue, count_flatMap_saved_eq_zero hAfter]
  | cond hValue hBranches =>
    rw [saved_eq, parts, List.flatMap_cons]
    simp only [assigned, List.nil_append, List.count_append, count_saved_save hValue,
      count_flatMap_saved_eq_zero hBranches]
  | @part n part before after hParts h hRest ih =>
    obtain ⟨hBefore, hAfter⟩ := List.forall_mem_append.mp hRest
    have hAssigned : x ∉ n.assigned := by
      intro hMem
      obtain ⟨c, hc, hTemp⟩ := hasTemp_of_mem_assigned hMem
      have hc := closedParts_subset n hc
      obtain ⟨s, rfl⟩ := temp?_eq_some_iff.mp hTemp
      rw [hParts, List.mem_append, List.mem_cons] at hc
      obtain hc | rfl | hc := hc
      · exact hBefore _ hc ⟨s, .root⟩
      · exact not_saves_of_parts_nil rfl h
      · exact hAfter _ hc ⟨s, .root⟩
    rw [saved_eq, hParts]
    simp [List.count_eq_zero_of_not_mem hAssigned, hAbsent hBefore, hAbsent hAfter, ih]

/-- Inside of a tree that saves the temporary, a tree saves it, or else does no more than read
it. -/
theorem Saves.of_has (h : n.Saves x) (hHas : n.Has m) : m.Saves x ∨ m.OnlyReads x := by
  have hAbsent : ∀ {k : Node}, ¬ k.HasTemp x → k.Has m → m.Saves x ∨ m.OnlyReads x :=
    fun hk hHas => .inr ((onlyReads_of_not_hasTemp hk).of_has hHas)
  have hSave : ∀ {s s' : Span} {value : Node}, ¬ value.HasTemp x →
      (assign s (temp s' x) value).Has m → m.Saves x ∨ m.OnlyReads x := by
    intro s s' value hValue hHas
    obtain rfl | ⟨part, hPart, hPartHas⟩ := hHas.cases_root
    · exact .inl (.save hValue)
    · obtain rfl | rfl : part = temp s' x ∨ part = value := by simpa using hPart
      · exact .inr ((onlyReads_atom _ _).of_has hPartHas)
      · exact hAbsent hValue hPartHas
  induction h with
  | save hValue => exact hSave hValue hHas
  | seq hBefore hValue hAfter =>
    obtain rfl | ⟨part, hPart, hPartHas⟩ := hHas.cases_root
    · exact .inl (.seq hBefore hValue hAfter)
    · obtain hPart | rfl | hPart := (List.mem_append.mp hPart).imp_right List.mem_cons.mp
      · exact hAbsent (hBefore part hPart) hPartHas
      · exact hSave hValue hPartHas
      · exact .inr ((hAfter part hPart).of_has hPartHas)
  | cond hValue hBranches =>
    obtain rfl | ⟨part, hPart, hPartHas⟩ := hHas.cases_root
    · exact .inl (.cond hValue hBranches)
    · obtain rfl | hPart := List.mem_cons.mp hPart
      · exact hSave hValue hPartHas
      · exact .inr ((hBranches part hPart).of_has hPartHas)
  | part hParts h hRest ih =>
    obtain rfl | ⟨part, hPart, hPartHas⟩ := hHas.cases_root
    · exact .inl (.part hParts h hRest)
    · obtain ⟨hBefore, hAfter⟩ := List.forall_mem_append.mp hRest
      rw [hParts, List.mem_append, List.mem_cons] at hPart
      obtain hPart | rfl | hPart := hPart
      · exact hAbsent (hBefore part hPart) hPartHas
      · exact ih hPartHas
      · exact hAbsent (hAfter part hPart) hPartHas

/-! ## Order -/

theorem inOrder_optionTraces {o : Option Node} (h : ∀ m ∈ o.toList, m.traces.InOrder x) :
    (optionTraces o).InOrder x := by
  cases o with
  | none =>
    rw [optionTraces]
    exact Traces.inOrder_quiet
  | some n =>
    rw [optionTraces]
    exact h n (by simp)

theorem inOrder_listTraces {ns : List Node} (h : ∀ m ∈ ns, m.traces.InOrder x) :
    (listTraces ns).InOrder x := by
  induction ns with
  | nil =>
    rw [listTraces]
    exact Traces.inOrder_quiet
  | cons n ns ih =>
    rw [listTraces]
    exact (h n (.head _)).andThen (ih fun m hm => h m (.tail _ hm))

theorem inOrder_targetTraces {target : Node} (h : target.temp? ≠ none ∨ target.traces.InOrder x) :
    (target.targetTraces target.traces).InOrder x := by
  unfold targetTraces
  split
  · exact Traces.inOrder_set _
  · rename_i hTemp
    refine h.resolve_left fun hSome => ?_
    obtain ⟨y, hy⟩ := Option.ne_none_iff_exists'.mp hSome
    obtain ⟨s, rfl⟩ := temp?_eq_some_iff.mp hy
    exact hTemp s y rfl

theorem inOrder_targetsTraces {ns : List Node} (h : ∀ m ∈ ns, m.temp? ≠ none ∨ m.traces.InOrder x) :
    (targetsTraces ns).InOrder x := by
  induction ns with
  | nil =>
    rw [targetsTraces]
    exact Traces.inOrder_quiet
  | cons n ns ih =>
    rw [targetsTraces]
    exact (inOrder_targetTraces (h n (.head _))).andThen (ih fun m hm => h m (.tail _ hm))

/-- A node is in order if its parts are, unless it reads the temporary itself. -/
theorem inOrder_of_parts (hTemp : n.temp? ≠ some x) (h : ∀ m ∈ n.parts, m.traces.InOrder x) :
    n.traces.InOrder x := by
  have hNone : Traces.InOrder x fun _ _ => False := nofun
  cases n with
  | atom s a =>
    cases a with
    | temp t =>
      rw [traces]
      exact Traces.inOrder_get fun hEq => hTemp (congrArg some hEq)
    | _ => rw [traces] <;> first | exact Traces.inOrder_quiet | exact nofun
  | var | define =>
    rw [traces]
    exact Traces.inOrder_quiet
  | seq s stmts =>
    rw [traces]
    exact inOrder_listTraces h
  | cond s form test body other =>
    rw [traces]
    exact (h test (.head _)).andThen
      ((inOrder_optionTraces fun m hm => h m (.tail _ (List.mem_append_left _ hm))).either
        (inOrder_optionTraces fun m hm => h m (.tail _ (List.mem_append_right _ hm))))
  | loop s test body =>
    rw [traces]
    have hTest := h test (.head _)
    exact .rounds hTest (hTest.andThen (inOrder_optionTraces fun m hm => h m (.tail _ hm)))
  | jump s kind value =>
    rw [traces]
    exact (inOrder_optionTraces h).andThen (Traces.inOrder_leave kind)
  | assign s target value =>
    rw [traces]
    exact (h value (by simp)).andThen (inOrder_targetTraces (.inr (h target (by simp))))
  | multi s targets values =>
    rw [traces]
    exact (inOrder_listTraces fun m hm => h m (List.mem_append_right _ hm)).andThen
      (inOrder_targetsTraces fun m hm => .inr (h m (List.mem_append_left _ hm)))
  | call s receiver name args block =>
    have hReceiver := inOrder_optionTraces fun m hm => h m (List.mem_append_left _ hm)
    have hArgs := inOrder_listTraces fun m hm =>
      h m (List.mem_append_right _ (List.mem_append_left _ hm))
    cases block with
    | none =>
      rw [traces]
      exact hReceiver.andThen hArgs
    | some b =>
      rw [traces]
      refine (hReceiver.andThen hArgs).andThen (.rounds Traces.inOrder_quiet ?_)
      exact inOrder_optionTraces fun m hm =>
        h m (List.mem_append_right _ (List.mem_append_right _ hm))
  | isA s subject type =>
    rw [traces]
    exact h subject (by simp)
  | choose | logic | interp | range | regex | array | hash | require =>
    rw [traces]
    exact hNone

theorem inOrder_of_not_hasTemp (h : ¬ n.HasTemp x) : n.traces.InOrder x := by
  induction hWeight : n.weight using Nat.strongRecOn generalizing n with
  | _ w ih =>
    subst hWeight
    obtain ⟨hTemp, hParts⟩ := not_or.mp (mt hasTemp_iff.mpr h)
    exact inOrder_of_parts hTemp fun m hm =>
      ih _ (weight_lt_of_mem_parts hm) (fun hm' => hParts ⟨m, hm, hm'⟩) rfl

theorem traces_save (s s' : Span) (value : Node) :
    (assign s (temp s' x) value).traces = value.traces.andThen (.single (.set x)) := by
  rw [traces]
  rfl

theorem sets_save {s s' : Span} {value : Node} : (assign s (temp s' x) value).traces.Sets x := by
  rw [traces_save]
  exact (Traces.sets_single x).andThen_right

theorem inOrder_save {s s' : Span} {value : Node} (hValue : ¬ value.HasTemp x) :
    (assign s (temp s' x) value).traces.InOrder x := by
  rw [traces_save]
  exact (inOrder_of_not_hasTemp hValue).andThen (Traces.inOrder_set x)

/-- On every path through a tree that saves the temporary, reads come after the assignment. -/
theorem Saves.inOrder (h : n.Saves x) : n.traces.InOrder x := by
  induction h with
  | save hValue => exact inOrder_save hValue
  | @seq s s₁ s₂ before after value hBefore hValue hAfter =>
    rw [traces]
    induction before with
    | nil =>
      rw [List.nil_append, listTraces]
      exact (inOrder_save hValue).andThen_of_sets sets_save
    | cons m before ih =>
      obtain ⟨hm, hBefore⟩ := List.forall_mem_cons.mp hBefore
      rw [List.cons_append, listTraces]
      exact (inOrder_of_not_hasTemp hm).andThen (ih hBefore)
  | cond hValue _ =>
    rw [traces]
    exact (inOrder_save hValue).andThen_of_sets sets_save
  | @part n part before after hParts h hRest ih =>
    refine inOrder_of_parts ?_ fun m hm => ?_
    · intro hTemp
      obtain ⟨s, rfl⟩ := temp?_eq_some_iff.mp hTemp
      exact List.append_ne_nil_of_right_ne_nil _ (List.cons_ne_nil _ _) hParts.symm
    · rw [hParts, List.mem_append, List.mem_cons] at hm
      obtain hm | rfl | hm := hm
      · exact inOrder_of_not_hasTemp (hRest m (List.mem_append_left _ hm))
      · exact ih
      · exact inOrder_of_not_hasTemp (hRest m (List.mem_append_right _ hm))

/-- A body of a definition that is run by itself has its reads in order as well. -/
theorem Saves.inOrder_body {s : Span} {kind : DefKind} {name : Symbol} {params : List (Param Node)}
    {body : Node} (h : n.Saves x) (hHas : n.Has (.define s kind name params (some body))) :
    body.traces.InOrder x := by
  have hPart : body ∈ (define s kind name params (some body)).closedParts := by simp [closedParts]
  obtain hSaves | hReads := h.of_has hHas
  · cases hSaves with
    | part hParts hSaves hRest =>
      have hMem := closedParts_subset _ hPart
      rw [hParts, List.mem_append, List.mem_cons] at hMem
      obtain hMem | rfl | hMem := hMem
      · exact inOrder_of_not_hasTemp (hRest _ (List.mem_append_left _ hMem))
      · exact hSaves.inOrder
      · exact inOrder_of_not_hasTemp (hRest _ (List.mem_append_right _ hMem))
  · exact inOrder_of_not_hasTemp (hReads _ .root body hPart)

end Node

end CoreTree
