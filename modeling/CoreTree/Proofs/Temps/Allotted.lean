import CoreTree.Normal.Statements
import CoreTree.Proofs.Temps.Once
import Mathlib.Tactic.Tauto

/-! # Trees that share out temporaries

Of the trees that one run makes, each temporary that was made by then is saved in exactly one, and
the others do not mention it. This stays so when trees are put together to a larger one, be it with
new temporaries in it.
-/
namespace CoreTree
set_option autoImplicit false

variable {x t : Symbol} {ns ms rest new : List Node} {n m k : Node}

/-! ## Lists of trees -/

/-- One of the trees saves the temporary, and the others do not mention it. -/
def OneSaves (x : Symbol) : List Node → Prop
  | [] => False
  | m :: rest =>
    (m.Saves x ∧ ∀ r ∈ rest, ¬ r.HasTemp x) ∨ (¬ m.HasTemp x ∧ OneSaves x rest)

theorem oneSaves_append : OneSaves x (ns ++ ms) ↔
    (OneSaves x ns ∧ ∀ m ∈ ms, ¬ m.HasTemp x) ∨ ((∀ n ∈ ns, ¬ n.HasTemp x) ∧ OneSaves x ms) := by
  induction ns with
  | nil => simp [OneSaves]
  | cons n ns ih =>
    simp only [List.cons_append, OneSaves, ih, List.forall_mem_append, List.forall_mem_cons]
    tauto

theorem oneSaves_singleton : OneSaves x [m] ↔ m.Saves x := by simp [OneSaves]

theorem OneSaves.perm (h : OneSaves x ns) (hPerm : ns.Perm ms) : OneSaves x ms := by
  induction hPerm with
  | nil => exact h
  | cons n hPerm ih =>
    exact h.imp (And.imp_right fun hRest r hr => hRest r (hPerm.mem_iff.mpr hr)) (And.imp_right ih)
  | swap n n' ns =>
    simp only [OneSaves, List.forall_mem_cons] at h ⊢
    tauto
  | trans _ _ ih ih' => exact ih' (ih h)

theorem OneSaves.exists_split (h : OneSaves x ns) : ∃ before m after, ns = before ++ m :: after ∧
    m.Saves x ∧ ∀ r ∈ before ++ after, ¬ r.HasTemp x := by
  induction ns with
  | nil => exact h.elim
  | cons n ns ih =>
    obtain ⟨hn, hRest⟩ | ⟨hn, hRest⟩ := h
    · exact ⟨[], n, ns, rfl, hn, hRest⟩
    · obtain ⟨before, m, after, rfl, hm, hOthers⟩ := ih hRest
      exact ⟨n :: before, m, after, rfl, hm, List.forall_mem_cons.mpr ⟨hn, hOthers⟩⟩

theorem Node.saves_of_parts (h : OneSaves x n.parts) : n.Saves x := by
  obtain ⟨before, m, after, hParts, hm, hRest⟩ := h.exists_split
  exact .part hParts hm hRest

theorem saves_assign_temp {s s' : Span} (hx : x ≠ t) (h : m.Saves x) :
    (Node.assign s (.temp s' t) m).Saves x := by
  refine Node.saves_of_parts (.inr ⟨fun hTemp => hx (Node.hasTemp_temp.mp hTemp), ?_⟩)
  exact .inl ⟨h, nofun⟩

/-- What `OneSaves` is for parts, this is for the statements of a sequence. -/
inductive SavesIn (x : Symbol) : List Node → Prop where
  | one {ns : List Node} (h : OneSaves x ns) : SavesIn x ns
  | split {s s' : Span} {before after : List Node} {value : Node}
    (hBefore : ∀ m ∈ before, ¬ m.HasTemp x) (hValue : ¬ value.HasTemp x)
    (hAfter : ∀ m ∈ after, m.OnlyReads x) :
    SavesIn x (before ++ .assign s (.temp s' x) value :: after)

theorem SavesIn.seq (h : SavesIn x ns) (s : Span) : (Node.seq s ns).Saves x := by
  cases h with
  | one h => exact Node.saves_of_parts h
  | split hBefore hValue hAfter => exact .seq hBefore hValue hAfter

theorem SavesIn.ofStatements (h : SavesIn x ns) (s : Span) : (Node.ofStatements s ns).Saves x := by
  match ns with
  | [] =>
    generalize hNil : ([] : List Node) = ns at h
    cases h with
    | one h =>
      subst hNil
      exact h.elim
    | split => simp at hNil
  | [n] =>
    generalize hSingle : [n] = ns at h
    cases h with
    | one h =>
      subst hSingle
      exact oneSaves_singleton.mp h
    | split hBefore hValue hAfter =>
      obtain ⟨rfl, hEq⟩ | ⟨_, -, hEq⟩ := List.append_eq_cons_iff.mp hSingle.symm
      · cases hEq
        exact .save hValue
      · simp at hEq
  | _ :: _ :: _ => exact h.seq s

theorem Node.Saves.statements (h : n.Saves x) : SavesIn x n.statements := by
  unfold Node.statements
  split
  · exact absurd h (Node.not_saves_of_parts_nil rfl)
  · cases h with
    | seq hBefore hValue hAfter => exact .split hBefore hValue hAfter
    | part hParts h hRest =>
      obtain ⟨hBefore, hAfter⟩ := List.forall_mem_append.mp hRest
      refine .one ((congrArg (OneSaves x) hParts).mpr ?_)
      exact oneSaves_append.mpr (.inr ⟨hBefore, .inl ⟨h, hAfter⟩⟩)
  · exact .one (oneSaves_singleton.mpr h)

/-- Statements that do not mention the temporary may come in between. -/
theorem SavesIn.insert (h : SavesIn x (ns ++ ms)) (hNew : ∀ m ∈ new, ¬ m.HasTemp x) :
    SavesIn x (ns ++ new ++ ms) := by
  generalize hEq : ns ++ ms = all at h
  cases h with
  | one h =>
    subst hEq
    refine .one ((oneSaves_append.mpr (.inr ⟨hNew, h⟩)).perm ?_)
    rw [← List.append_assoc]
    exact List.perm_append_comm.append_right _
  | @split s s' before after value hBefore hValue hAfter =>
    have hReads : ∀ m ∈ new, m.OnlyReads x := fun m hm => Node.onlyReads_of_not_hasTemp (hNew m hm)
    obtain ⟨gap, rfl, rfl⟩ | ⟨gap, rfl, hGap⟩ := List.append_eq_append_iff.mp hEq
    · obtain ⟨hFirst, hSecond⟩ := List.forall_mem_append.mp hBefore
      rw [← List.append_assoc]
      exact .split (List.forall_mem_append.mpr ⟨List.forall_mem_append.mpr ⟨hFirst, hNew⟩, hSecond⟩)
        hValue hAfter
    · cases gap with
      | nil =>
        rw [List.nil_append] at hGap
        rw [List.append_nil, ← hGap]
        exact .split (List.forall_mem_append.mpr ⟨hBefore, hNew⟩) hValue hAfter
      | cons m gap =>
        obtain ⟨rfl, rfl⟩ := List.cons_eq_cons.mp hGap
        obtain ⟨hFirst, hSecond⟩ := List.forall_mem_append.mp hAfter
        rw [List.append_assoc, List.append_assoc, List.cons_append]
        exact .split hBefore hValue (List.forall_mem_append.mpr
          ⟨hFirst, List.forall_mem_append.mpr ⟨hReads, hSecond⟩⟩)

/-! ## Where temporaries stand -/

namespace Node

/-- The temporaries of the tree are all in `temps`, and those where nothing from elsewhere may be
read, as in a definition, are all in `closed`. -/
def Tidy (temps closed : Symbol → Prop) (n : Node) : Prop :=
  n.Everywhere true fun m =>
    (∀ t, m.temp? = some t → temps t) ∧ ∀ c ∈ m.closedParts, ∀ t, c.HasTemp t → closed t

variable {temps closed temps' closed' : Symbol → Prop}

theorem tidy_of_parts (hTemp : ∀ t, n.temp? = some t → temps t)
    (hClosed : ∀ c ∈ n.closedParts, ∀ t, c.HasTemp t → closed t)
    (hParts : ∀ part ∈ n.parts, part.Tidy temps closed) : n.Tidy temps closed :=
  everywhere_of_root ⟨hTemp, hClosed⟩ hParts

theorem Tidy.parts (h : n.Tidy temps closed) : ∀ part ∈ n.parts, part.Tidy temps closed :=
  ((everywhere_iff n).mp h).2 (.inl rfl)

theorem Tidy.mono (h : n.Tidy temps closed) (hTemps : ∀ t, temps t → temps' t)
    (hClosed : ∀ t, closed t → closed' t) : n.Tidy temps' closed' := fun m hm =>
  ⟨fun t ht => hTemps t ((h m hm).1 t ht), fun c hc t ht => hClosed t ((h m hm).2 c hc t ht)⟩

theorem Tidy.hasTemp (h : n.Tidy temps closed) (ht : n.HasTemp t) : temps t := by
  obtain ⟨s, hHas⟩ := ht
  exact (h _ (reaches_true_iff.mpr hHas)).1 t rfl

theorem tidy_of_hasTemp (h : ∀ t, n.HasTemp t → closed t) (hTemps : ∀ t, closed t → temps t) :
    n.Tidy temps closed := by
  intro m hm
  have hHas := reaches_true_iff.mp hm
  exact ⟨fun t ht => hTemps t (h t (.of_has hHas (hasTemp_iff.mpr (.inl ht)))),
    fun c hc t ht => h t (.of_has hHas (.of_part (closedParts_subset m hc) ht))⟩

theorem Tidy.onlyReads (h : n.Tidy temps closed) (ht : ¬ closed t) : n.OnlyReads t :=
  fun m hm c hc hTemp => ht ((h m hm).2 c hc t hTemp)

theorem Tidy.of_closedPart (h : n.Tidy temps closed) (hm : m ∈ n.closedParts) (ht : m.HasTemp t) :
    closed t := (h n .root).2 m hm t ht

theorem tidy_of_closedParts_nil (hTemp : n.temp? = none) (hClosed : n.closedParts = [])
    (hParts : ∀ part ∈ n.parts, part.Tidy temps closed) : n.Tidy temps closed :=
  tidy_of_parts (by simp [hTemp]) (by simp [hClosed]) hParts

theorem tidy_seq {s : Span} : (seq s ns).Tidy temps closed ↔ ∀ n ∈ ns, n.Tidy temps closed :=
  ⟨Tidy.parts, fun h => tidy_of_closedParts_nil rfl rfl h⟩

theorem tidy_nop (s : Span) : (nop s).Tidy temps closed := tidy_of_closedParts_nil rfl rfl nofun

theorem tidy_ofStatements (s : Span) (h : ∀ n ∈ ns, n.Tidy temps closed) :
    (ofStatements s ns).Tidy temps closed := by
  match ns with
  | [] => exact tidy_nop s
  | [n] => exact h n (.head _)
  | _ :: _ :: _ => exact tidy_seq.mpr h

theorem Tidy.statements (h : n.Tidy temps closed) : ∀ m ∈ n.statements, m.Tidy temps closed := by
  unfold Node.statements
  split
  · exact nofun
  · exact tidy_seq.mp h
  · exact List.forall_mem_singleton.mpr h

theorem not_hasTemp_of_tidy (h : n.Tidy (· ≠ x) (· ≠ x)) : ¬ n.HasTemp x := fun hTemp =>
  h.hasTemp hTemp rfl

theorem tidy_of_not_hasTemp (h : ¬ n.HasTemp x) : n.Tidy (· ≠ x) (· ≠ x) :=
  tidy_of_hasTemp (fun _ ht hEq => h (hEq ▸ ht)) fun _ => id

/-! ## Trees put together -/

/-- The tree is put together from others and from temporaries that are `new`. -/
structure BuiltOf (new : Symbol → Prop) (ms : List Node) (k : Node) : Prop where
  tidy : ∀ {temps closed : Symbol → Prop}, (∀ t, closed t → temps t) → (∀ t, new t → closed t) →
    (∀ m ∈ ms, m.Tidy temps closed) → k.Tidy temps closed
  saves : ∀ x, ¬ new x → OneSaves x ms → k.Saves x

/-- Each of the trees is put together from some of the others, in the same order. -/
inductive AllBuiltOf (new : Symbol → Prop) : List Node → List Node → Prop where
  | nil : AllBuiltOf new [] []
  | cons {ms rest ks : List Node} {k : Node} (h : BuiltOf new ms k)
    (hRest : AllBuiltOf new rest ks) : AllBuiltOf new (ms ++ rest) (k :: ks)

variable {added : Symbol → Prop} {ks js : List Node}

theorem BuiltOf.not_hasTemp (h : BuiltOf added ms k) (hx : ¬ added x)
    (hMs : ∀ m ∈ ms, ¬ m.HasTemp x) : ¬ k.HasTemp x :=
  not_hasTemp_of_tidy (h.tidy (fun _ => id) (fun _ hAdded hEq => hx (by rwa [← hEq]))
    fun m hm => tidy_of_not_hasTemp (hMs m hm))

theorem builtOf_self (m : Node) : BuiltOf added [m] m :=
  ⟨fun _ _ h => h m (.head _), fun _ _ => oneSaves_singleton.mp⟩

namespace AllBuiltOf

theorem refl (ms : List Node) : AllBuiltOf added ms ms := by
  induction ms with
  | nil => exact .nil
  | cons m ms ih => exact .cons (builtOf_self m) ih

theorem append (h : AllBuiltOf added ms ks) (h' : AllBuiltOf added ns js) :
    AllBuiltOf added (ms ++ ns) (ks ++ js) := by
  induction h with
  | nil => exact h'
  | cons hHead _ ih =>
    rw [List.append_assoc]
    exact .cons hHead ih

theorem tidy (h : AllBuiltOf added ms ks) (hTemps : ∀ t, closed t → temps t)
    (hAdded : ∀ t, added t → closed t) (hMs : ∀ m ∈ ms, m.Tidy temps closed) :
    ∀ k ∈ ks, k.Tidy temps closed := by
  induction h with
  | nil => exact nofun
  | cons hHead _ ih =>
    obtain ⟨hFirst, hRest⟩ := List.forall_mem_append.mp hMs
    exact List.forall_mem_cons.mpr ⟨hHead.tidy hTemps hAdded hFirst, ih hRest⟩

theorem not_hasTemp (h : AllBuiltOf added ms ks) (hx : ¬ added x) (hMs : ∀ m ∈ ms, ¬ m.HasTemp x) :
    ∀ k ∈ ks, ¬ k.HasTemp x := by
  have hTidy : ∀ k ∈ ks, k.Tidy (· ≠ x) (· ≠ x) := h.tidy (fun _ => id)
    (fun _ hAdded hEq => hx (hEq ▸ hAdded)) fun m hm => tidy_of_not_hasTemp (hMs m hm)
  exact fun k hk => not_hasTemp_of_tidy (hTidy k hk)

theorem oneSaves (h : AllBuiltOf added ms ks) (hx : ¬ added x) (hOne : OneSaves x ms) :
    OneSaves x ks := by
  induction h with
  | nil => exact hOne
  | cons hHead hRest ih =>
    obtain ⟨hFirst, hOthers⟩ | ⟨hFirst, hOthers⟩ := oneSaves_append.mp hOne
    · exact .inl ⟨hHead.saves x hx hFirst, hRest.not_hasTemp hx hOthers⟩
    · exact .inr ⟨hHead.not_hasTemp hx hFirst, ih hOthers⟩

theorem mapIdx {f : Nat → Node → Node} (h : ∀ i n, BuiltOf added [n] (f i n)) (ns : List Node) :
    AllBuiltOf added ns (ns.mapIdx f) := by
  induction ns generalizing f with
  | nil => exact .nil
  | cons n ns ih =>
    rw [List.mapIdx_cons]
    exact .cons (h 0 n) (ih fun i m => h (i + 1) m)

theorem flatMap {ι : Type} {parts : ι → List Node} {f : ι → Node}
    (h : ∀ e, BuiltOf added (parts e) (f e)) (es : List ι) :
    AllBuiltOf added (es.flatMap parts) (es.map f) := by
  induction es with
  | nil => exact .nil
  | cons e es ih => exact .cons (h e) ih

theorem builtOf (h : AllBuiltOf added ms k.parts) (hTemp : k.temp? = none)
    (hClosed : k.closedParts = []) : BuiltOf added ms k where
  tidy hTemps hAdded hMs := tidy_of_closedParts_nil hTemp hClosed (h.tidy hTemps hAdded hMs)
  saves _ hx hOne := saves_of_parts (h.oneSaves hx hOne)

end AllBuiltOf

theorem builtOf_of_parts (h : k.parts = ms) (hTemp : k.temp? = none)
    (hClosed : k.closedParts = []) : BuiltOf added ms k :=
  AllBuiltOf.builtOf (h ▸ .refl _) hTemp hClosed

/-- A tree that holds no temporaries but new ones. -/
theorem builtOf_new (h : ∀ t, k.HasTemp t → added t) : BuiltOf added [] k where
  tidy hTemps hAdded _ := tidy_of_hasTemp (fun t ht => hAdded t (h t ht)) hTemps
  saves _ _ hOne := hOne.elim

theorem builtOf_atom (s : Span) {a : Atom} (h : ∀ t, a ≠ .temp t) :
    BuiltOf added [] (atom s a) := by
  refine builtOf_new fun x hx => ?_
  obtain ⟨_, hEq⟩ := temp?_eq_some_iff.mp ((hasTemp_iff.mp hx).resolve_right nofun)
  cases hEq
  exact (h x rfl).elim

theorem builtOf_temp (s : Span) (h : added t) : BuiltOf added [] (temp s t) :=
  builtOf_new fun _ hTemp => hasTemp_temp.mp hTemp ▸ h

theorem builtOf_send (s : Span) (name : Symbol) {receiver : Node} {args : List Node}
    (h : AllBuiltOf added ms (receiver :: args)) :
    BuiltOf added ms (send s receiver name args) := by
  refine AllBuiltOf.builtOf ?_ rfl rfl
  rwa [send, parts, Option.toList_some, Option.bind_none, Option.toList_none, List.append_nil]

theorem builtOf_save {s s' : Span} (h : BuiltOf added ms m) (ht : added t) :
    BuiltOf added ms (assign s (temp s' t) m) where
  tidy hTemps hAdded hMs := by
    refine tidy_of_parts nofun ?_ (List.forall_mem_cons.mpr ⟨?_, ?_⟩)
    · exact List.forall_mem_singleton.mpr fun x hx => hAdded x (hasTemp_temp.mp hx ▸ ht)
    · exact (builtOf_temp s' ht).tidy hTemps hAdded nofun
    · exact List.forall_mem_singleton.mpr (h.tidy hTemps hAdded hMs)
  saves x hx hOne := saves_assign_temp (fun hEq => hx (hEq ▸ ht)) (h.saves x hx hOne)

/-! Statements -/

theorem not_hasTemp_statements (h : ¬ n.HasTemp x) : ∀ m ∈ n.statements, ¬ m.HasTemp x :=
  fun m hm => not_hasTemp_of_tidy ((tidy_of_not_hasTemp h).statements m hm)

theorem not_hasTemp_branchStatements {branch : Option Node}
    (h : ∀ m ∈ branch.toList, ¬ m.HasTemp x) : ∀ m ∈ branchStatements branch, ¬ m.HasTemp x := by
  cases branch with
  | none => exact nofun
  | some n => exact not_hasTemp_statements (h n (.head _))

/-- Statements that are put together from trees and from temporaries that are `new`. -/
structure SequenceOf (new : Symbol → Prop) (ms ns : List Node) : Prop where
  tidy : ∀ {temps closed : Symbol → Prop}, (∀ t, closed t → temps t) → (∀ t, new t → closed t) →
    (∀ m ∈ ms, m.Tidy temps closed) → ∀ n ∈ ns, n.Tidy temps closed
  saves : ∀ x, ¬ new x → OneSaves x ms → SavesIn x ns

namespace SequenceOf

theorem seq (h : SequenceOf added ms ns) (s : Span) : BuiltOf added ms (.seq s ns) where
  tidy hTemps hAdded hMs := tidy_seq.mpr (h.tidy hTemps hAdded hMs)
  saves x hx hOne := (h.saves x hx hOne).seq s

theorem ofStatements (h : SequenceOf added ms ns) (s : Span) :
    BuiltOf added ms (.ofStatements s ns) where
  tidy hTemps hAdded hMs := tidy_ofStatements s (h.tidy hTemps hAdded hMs)
  saves x hx hOne := (h.saves x hx hOne).ofStatements s

theorem insert (h : SequenceOf added ms (ns ++ js)) (hNew : ∀ n ∈ ks, BuiltOf added [] n) :
    SequenceOf added ms (ns ++ ks ++ js) where
  tidy hTemps hAdded hMs := by
    obtain ⟨hNs, hJs⟩ := List.forall_mem_append.mp (h.tidy hTemps hAdded hMs)
    exact List.forall_mem_append.mpr ⟨List.forall_mem_append.mpr
      ⟨hNs, fun k hk => (hNew k hk).tidy hTemps hAdded nofun⟩, hJs⟩
  saves x hx hOne := (h.saves x hx hOne).insert fun k hk => (hNew k hk).not_hasTemp hx nofun

theorem append (h : SequenceOf added ms ns) (hNew : ∀ n ∈ ks, BuiltOf added [] n) :
    SequenceOf added ms (ns ++ ks) := by
  rw [← List.append_nil ns] at h
  simpa using h.insert hNew

end SequenceOf

theorem AllBuiltOf.sequenceOf (h : AllBuiltOf added ms ks) : SequenceOf added ms ks :=
  ⟨h.tidy, fun _ hx hOne => .one (h.oneSaves hx hOne)⟩

theorem sequenceOf_branchStatements (branch : Option Node) :
    SequenceOf added branch.toList (branchStatements branch) := by
  cases branch with
  | none => exact ⟨fun _ _ _ => nofun, fun _ _ hOne => hOne.elim⟩
  | some n => exact ⟨fun _ _ hMs => (hMs n (.head _)).statements,
      fun _ _ hOne => (oneSaves_singleton.mp hOne).statements⟩

theorem sequenceOf_statements (n : Node) : SequenceOf added [n] n.statements :=
  sequenceOf_branchStatements (some n)

theorem BuiltOf.join {s : Span} (h : BuiltOf added ms n) :
    SequenceOf added (ms ++ [.seq s ns]) (n.statements ++ ns) where
  tidy hTemps hAdded hMs := by
    obtain ⟨hMs, hSeq⟩ := List.forall_mem_append.mp hMs
    exact List.forall_mem_append.mpr ⟨(h.tidy hTemps hAdded hMs).statements,
      tidy_seq.mp (hSeq _ (.head _))⟩
  saves x hx hOne := by
    obtain ⟨hOne, hSeq⟩ | ⟨hMs, hSeq⟩ := oneSaves_append.mp hOne
    · have hFirst := (h.saves x hx hOne).statements
      rw [← List.append_nil n.statements] at hFirst
      simpa using hFirst.insert fun m hm hTemp => hSeq _ (.head _) (.of_part hm hTemp)
    · have hRest : SavesIn x ([] ++ ns) := (oneSaves_singleton.mp hSeq).statements
      exact hRest.insert (not_hasTemp_statements (h.not_hasTemp hx hMs))

/-- The last statement may be saved in a new temporary. -/
theorem SequenceOf.saveLast {s s' : Span} {init : List Node} {last : Node}
    (h : SequenceOf added ms (init ++ [last])) (ht : added t) :
    SequenceOf added ms (init ++ [.assign s (.temp s' t) last]) where
  tidy hTemps hAdded hMs := by
    obtain ⟨hInit, hLast⟩ := List.forall_mem_append.mp (h.tidy hTemps hAdded hMs)
    exact List.forall_mem_append.mpr ⟨hInit, List.forall_mem_singleton.mpr
      ((builtOf_save (builtOf_self last) ht).tidy hTemps hAdded hLast)⟩
  saves x hx hOne := by
    have hSave : BuiltOf added [last] (.assign s (.temp s' t) last) :=
      builtOf_save (builtOf_self last) ht
    generalize hEq : init ++ [last] = all at h
    cases h.saves x hx hOne with
    | one h =>
      subst hEq
      refine .one ((oneSaves_append.mp h).elim (fun h => ?_) fun h => ?_)
      · exact oneSaves_append.mpr (.inl ⟨h.1, List.forall_mem_singleton.mpr
          (hSave.not_hasTemp hx h.2)⟩)
      · exact oneSaves_append.mpr (.inr ⟨h.1, oneSaves_singleton.mpr (hSave.saves x hx h.2)⟩)
    | @split _ _ before after value hBefore hValue hAfter =>
      obtain rfl | ⟨after, m, rfl⟩ := List.eq_nil_or_concat after
      · obtain ⟨rfl, hLast⟩ := List.append_inj' hEq rfl
        cases hLast
        refine .one (oneSaves_append.mpr (.inr ⟨hBefore, oneSaves_singleton.mpr ?_⟩))
        exact hSave.saves x hx (oneSaves_singleton.mpr (.save hValue))
      · rw [List.concat_eq_append] at hEq hAfter
        rw [← List.cons_append, ← List.append_assoc] at hEq
        obtain ⟨rfl, hLast⟩ := List.append_inj' hEq rfl
        cases hLast
        obtain ⟨hAfter, hLast⟩ := List.forall_mem_append.mp hAfter
        rw [List.append_assoc, List.cons_append]
        refine .split hBefore hValue (List.forall_mem_append.mpr ⟨hAfter,
          List.forall_mem_singleton.mpr ?_⟩)
        exact (hLast _ (.head _)).save fun hEq => hx (hEq ▸ ht)

end Node

/-! ## Sharing out -/

open Node

/-- The temporaries in `made` are saved in one of the trees each. Beside them the trees may mention
those that are their `own`, and they may read those that are `known`. -/
structure Allotted (known own : Symbol → Prop) (made : List Symbol) (ms : List Node) : Prop where
  tidy : ∀ m ∈ ms, m.Tidy (fun t => t ∈ made ∨ known t ∨ own t) fun t => t ∈ made ∨ own t
  saved : ∀ t ∈ made, OneSaves t ms

namespace Allotted

variable {known known' own own' : Symbol → Prop} {made made' : List Symbol}

theorem nil : Allotted known own [] [] := ⟨nofun, nofun⟩

theorem mono (h : Allotted known own made ms) (hKnown : ∀ t, known t → known' t)
    (hOwn : ∀ t, own t → own' t) : Allotted known' own' made ms where
  tidy m hm := (h.tidy m hm).mono (fun t => Or.imp_right (Or.imp (hKnown t) (hOwn t)))
    fun t => Or.imp_right (hOwn t)
  saved := h.saved

theorem perm (h : Allotted known own made ms) (hPerm : ms.Perm ns) :
    Allotted known own made ns :=
  ⟨fun m hm => h.tidy m (hPerm.mem_iff.mpr hm), fun t ht => (h.saved t ht).perm hPerm⟩

theorem hasTemp (h : Allotted known own made ms) (hm : m ∈ ms) (ht : m.HasTemp t) :
    t ∈ made ∨ known t ∨ own t := (h.tidy m hm).hasTemp ht

theorem append (h : Allotted known own made ms) (h' : Allotted known own made' ns)
    (hDisjoint : ∀ t ∈ made, t ∉ made') (hMade : ∀ t ∈ made ++ made', ¬ known t ∧ ¬ own t) :
    Allotted known own (made ++ made') (ms ++ ns) where
  tidy := by
    simp only [List.mem_append]
    rintro m (hm | hm)
    · exact (h.tidy m hm).mono (fun t => by tauto) fun t => by tauto
    · exact (h'.tidy m hm).mono (fun t => by tauto) fun t => by tauto
  saved t ht := by
    obtain ⟨hKnown, hOwn⟩ := hMade t ht
    obtain ht | ht := List.mem_append.mp ht
    · refine oneSaves_append.mpr (.inl ⟨h.saved t ht, fun m hm hTemp => ?_⟩)
      obtain hMem | hMem | hMem := h'.hasTemp hm hTemp
      · exact hDisjoint t ht hMem
      · exact hKnown hMem
      · exact hOwn hMem
    · refine oneSaves_append.mpr (.inr ⟨fun m hm hTemp => ?_, h'.saved t ht⟩)
      obtain hMem | hMem | hMem := h.hasTemp hm hTemp
      · exact hDisjoint t hMem ht
      · exact hKnown hMem
      · exact hOwn hMem

theorem onlyReads (h : Allotted known own made ms) (hm : m ∈ ms) (hMade : t ∉ made)
    (hOwn : ¬ own t) : m.OnlyReads t := (h.tidy m hm).onlyReads (not_or.mpr ⟨hMade, hOwn⟩)

/-- Some trees are put together to one. -/
theorem replace (h : Allotted known own made (ms ++ rest))
    (hBuilt : BuiltOf (fun _ => False) ms k) : Allotted known own made (k :: rest) where
  tidy := by
    obtain ⟨hMs, hRest⟩ := List.forall_mem_append.mp h.tidy
    exact List.forall_mem_cons.mpr ⟨hBuilt.tidy (fun _ => Or.imp_right .inr) nofun hMs, hRest⟩
  saved x hx := (oneSaves_append.mp (h.saved x hx)).imp (And.imp_left (hBuilt.saves x id))
    (And.imp_left (hBuilt.not_hasTemp id))

/-- The parts of a node are put together to the node. -/
theorem node (h : Allotted known own made (k.parts ++ rest)) (hTemp : k.temp? = none)
    (hClosed : ∀ c ∈ k.closedParts, ∀ t, c.HasTemp t → t ∈ made ∨ own t) :
    Allotted known own made (k :: rest) where
  tidy := by
    obtain ⟨hParts, hRest⟩ := List.forall_mem_append.mp h.tidy
    exact List.forall_mem_cons.mpr ⟨tidy_of_parts (by simp [hTemp]) hClosed hParts, hRest⟩
  saved x hx := by
    refine (oneSaves_append.mp (h.saved x hx)).imp (And.imp_left saves_of_parts)
      (And.imp_left fun hParts hRoot => ?_)
    obtain hEq | ⟨part, hPart, hPartTemp⟩ := hasTemp_iff.mp hRoot
    · simp [hTemp] at hEq
    · exact hParts part hPart hPartTemp

theorem toOption (h : Allotted known own made (n :: rest)) :
    Allotted known own made (n.toOption.toList ++ rest) := by
  unfold Node.toOption
  split
  · rename_i hNop
    obtain ⟨s, rfl⟩ := (n.isNop_iff).mp hNop
    refine ⟨(List.forall_mem_cons.mp h.tidy).2, fun x hx => ?_⟩
    exact ((h.saved x hx).resolve_left fun hSaves => not_saves_of_parts_nil rfl hSaves.1).2
  · exact h

/-- Some trees are put together to one that saves a new temporary. -/
theorem save (h : Allotted known' own made (ms ++ rest)) (hBuilt : BuiltOf (· = t) ms k)
    (hSaves : k.Saves t) (hMade : t ∉ made) (hRest : ∀ m ∈ rest, ¬ m.HasTemp t)
    (hKnown : ∀ x, known' x → x = t ∨ known x) (hMade' : ∀ x, x ∈ made' ↔ x = t ∨ x ∈ made) :
    Allotted known own made' (k :: rest) where
  tidy := by
    have hTidy : ∀ m ∈ ms ++ rest, m.Tidy (fun x => x ∈ made' ∨ known x ∨ own x)
        fun x => x ∈ made' ∨ own x := by
      simp only [hMade']
      exact fun m hm => (h.tidy m hm).mono (fun x => by have := hKnown x; tauto) fun x => by tauto
    obtain ⟨hMs, hRest⟩ := List.forall_mem_append.mp hTidy
    refine List.forall_mem_cons.mpr ⟨hBuilt.tidy (fun _ => Or.imp_right .inr) ?_ hMs, hRest⟩
    exact fun x hx => .inl ((hMade' x).mpr (.inl hx))
  saved x hx := by
    obtain rfl | hx := (hMade' x).mp hx
    · exact .inl ⟨hSaves, hRest⟩
    · have hNew : x ≠ t := fun hEq => hMade (hEq ▸ hx)
      exact (oneSaves_append.mp (h.saved x hx)).imp (And.imp_left (hBuilt.saves x hNew))
        (And.imp_left (hBuilt.not_hasTemp hNew))

end Allotted

end CoreTree
