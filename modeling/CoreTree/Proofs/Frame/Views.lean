import CoreTree.Proofs.Frame.Spares
import CoreTree.Proofs.Meaning.OfNode

/-! # Runs that leave a part of the machine alone

A view shows a part of the machine that calls have no access to. What a run does not write into the
view it leaves alone, whether it gives a value or exits, and so a tree leaves the view alone if all
its stores and its blocks do.
-/
namespace CoreTree
set_option autoImplicit false

variable {K V α β ρ : Type} {view : Machine K V → ρ}

namespace Eval

/-- From every machine and whatever comes of it, the view is what it was before. -/
def Leaves (view : Machine K V → ρ) (c : Eval K V α) : Prop := ∀ m, view (c.on m).2 = view m

theorem leaves_pure (a : α) : Leaves view (pure a : Eval K V α) := fun _ => rfl

theorem leaves_throw (e : Exit V) : Leaves view (throw e : Eval K V α) := fun _ => rfl

theorem Leaves.bind {c : Eval K V α} {f : α → Eval K V β} (h : c.Leaves view)
    (hNext : ∀ a, (f a).Leaves view) : (c >>= f).Leaves view := by
  intro m
  rcases hc : c.on m with ⟨e | a, m'⟩
  all_goals
    have hFirst := h m
    rw [hc] at hFirst
  · rw [on_bind_of_error hc]
    exact hFirst
  · rw [on_bind_of_ok hc]
    exact (hNext a m').trans hFirst

theorem leaves_ite {p : Prop} [Decidable p] {c d : Eval K V α} (hc : c.Leaves view)
    (hd : d.Leaves view) : Leaves view (if p then c else d) := by
  split
  · exact hc
  · exact hd

theorem Leaves.attempt {c : Eval K V α} (h : c.Leaves view) : c.attempt.Leaves view := h

theorem leaves_branch (I : Interp V) {c : Option (Eval K V V)} (h : ∀ d ∈ c, d.Leaves view) :
    (branch I c).Leaves view := by
  cases c with
  | none => exact leaves_pure _
  | some d => exact h d rfl

theorem leaves_optional {c : Option (Eval K V V)} (h : ∀ d ∈ c, d.Leaves view) :
    (optional c).Leaves view := by
  cases c with
  | none => exact leaves_pure _
  | some d => exact (h d rfl).bind fun _ => leaves_pure _

theorem leaves_all {cs : List (Eval K V V)} (h : ∀ c ∈ cs, c.Leaves view) :
    (all cs).Leaves view := by
  induction cs with
  | nil => exact leaves_pure _
  | cons c cs ih =>
    apply (h c (.head _)).bind
    exact fun _ => (ih fun d hd => h d (.tail _ hd)).bind fun _ => leaves_pure _

theorem leaves_seq (I : Interp V) {cs : List (Eval K V V)} (h : ∀ c ∈ cs, c.Leaves view) :
    (seq I cs).Leaves view := by
  induction cs with
  | nil => exact leaves_pure _
  | cons c cs ih =>
    have hRest := ih fun d hd => h d (.tail _ hd)
    cases cs with
    | nil => exact h c (.head _)
    | cons d ds => exact (h c (.head _)).bind fun _ => hRest

theorem leaves_cond (I : Interp V) (form : CondForm) {test : Eval K V V}
    {body other : Option (Eval K V V)} (hTest : test.Leaves view)
    (hBody : ∀ d ∈ body, d.Leaves view) (hOther : ∀ d ∈ other, d.Leaves view) :
    (cond I form test body other).Leaves view := by
  cases form with
  | whenTrue =>
    exact hTest.bind fun _ => leaves_ite (leaves_branch I hBody) (leaves_branch I hOther)
  | whenFalse =>
    exact hTest.bind fun _ => leaves_ite (leaves_branch I hOther) (leaves_branch I hBody)

theorem leaves_logic (I : Interp V) (op : LogicOp) {left right : Eval K V V}
    (hLeft : left.Leaves view) (hRight : right.Leaves view) :
    (logic I op left right).Leaves view :=
  hLeft.bind fun _ => leaves_ite hRight (leaves_pure _)

theorem leaves_loop (I : Interp V) {test body : Eval K V V} (hTest : test.Leaves view)
    (hBody : body.Leaves view) (rounds : Nat) : (loop I test body rounds).Leaves view := by
  have hPass : (pass I test body).Leaves view := hTest.bind fun _ =>
    leaves_ite (hBody.bind fun _ => leaves_pure _) (leaves_pure _)
  induction rounds with
  | zero => exact leaves_throw _
  | succ rounds ih =>
    apply hPass.attempt.bind
    intro exit
    split
    · exact ih
    · exact ih
    · exact leaves_pure _
    · exact leaves_pure _
    · exact leaves_throw _

theorem leaves_storeAll (I : Interp V) {stores : List (V → Eval K V Unit)}
    (h : ∀ store ∈ stores, ∀ v, (store v).Leaves view) (vs : List V) :
    (storeAll I stores vs).Leaves view := by
  induction stores generalizing vs with
  | nil => exact leaves_pure _
  | cons store stores ih =>
    exact (h store (.head _) _).bind fun _ => ih (fun s hs => h s (.tail _ hs)) vs.tail

/-! ## Calls -/

/-- The view shows nothing of the world. -/
def Inward (view : Machine K V → ρ) : Prop :=
  ∀ (m : Machine K V) (world : World V), view { m with world } = view m

section

variable (hView : Inward view)
include hView

theorem leaves_record (e : Event V) : (record e : Eval K V Unit).Leaves view := fun m => hView m _

theorem leaves_answer (I : Interp V) : (answer I : Eval K V V).Leaves view := fun m => hView m _

theorem leaves_reply (I : Interp V) (made : Event V) (given : List V) :
    (reply I made given : Eval K V (Reply V)).Leaves view := fun m => hView m _

theorem leaves_converse (I : Interp V) (made : Event V) {run : List V → Eval K V V}
    (h : ∀ args, (run args).Leaves view) (given : List V) (rounds : Nat) :
    (converse I made run given rounds).Leaves view := by
  induction rounds generalizing given with
  | zero => exact leaves_throw _
  | succ rounds ih =>
    apply (leaves_reply hView I made given).bind
    intro r
    cases r with
    | done v => exact leaves_pure _
    | run args =>
      exact (h args).bind fun v => (leaves_record hView _).bind fun _ => ih (v :: given)

omit hView in
theorem Leaves.catchBreak {c : Eval K V V} (h : c.Leaves view) : (catchBreak c).Leaves view := by
  apply h.attempt.bind
  intro exit
  split
  · exact leaves_pure _
  · exact leaves_pure _
  · exact leaves_throw _

theorem leaves_finishCall (I : Interp V) (rounds : Nat) (made : Event V)
    {block : Option (List V → Eval K V V)} (h : ∀ run ∈ block, ∀ args, (run args).Leaves view) :
    (finishCall I rounds made block).Leaves view := by
  apply (leaves_record hView made).bind
  intro _
  cases block with
  | none => exact leaves_answer hView I
  | some run => exact (leaves_converse hView I made (h run rfl) [] rounds).catchBreak

theorem leaves_call (I : Interp V) (rounds : Nat) {receiver : Option (Eval K V V)} (name : Symbol)
    {args : List (Eval K V V)} {block : Option (List V → Eval K V V)}
    (hReceiver : ∀ d ∈ receiver, d.Leaves view) (hArgs : ∀ c ∈ args, c.Leaves view)
    (hBlock : ∀ run ∈ block, ∀ args, (run args).Leaves view) :
    (call I rounds receiver name args block).Leaves view :=
  (leaves_optional hReceiver).bind fun _ => (leaves_all hArgs).bind fun _ =>
    leaves_finishCall hView I rounds _ hBlock

/-! ## `case` -/

theorem leaves_anyMatch (I : Interp V) (rounds : Nat) {subject : Eval K V V}
    {patterns : List (Eval K V V)} (hSubject : subject.Leaves view)
    (hPatterns : ∀ c ∈ patterns, c.Leaves view) :
    (anyMatch I rounds subject patterns).Leaves view := by
  induction patterns with
  | nil => exact leaves_pure _
  | cons p ps ih =>
    obtain ⟨hFirst, hRest⟩ := List.forall_mem_cons.mp hPatterns
    refine Leaves.bind (leaves_call hView I rounds _ ?_ ?_ nofun) fun _ =>
      leaves_ite (leaves_pure _) (ih hRest)
    · rintro _ ⟨⟩
      exact hFirst
    · exact List.forall_mem_singleton.mpr hSubject

theorem leaves_clauses (I : Interp V) (rounds : Nat) {subject : Eval K V V}
    {whens : List (When (Eval K V V))} {other : Option (Eval K V V)}
    (hSubject : subject.Leaves view)
    (hWhens : ∀ w ∈ whens, (∀ c ∈ w.patterns, c.Leaves view) ∧ ∀ d ∈ w.body, d.Leaves view)
    (hOther : ∀ d ∈ other, d.Leaves view) : (clauses I rounds subject whens other).Leaves view := by
  induction whens with
  | nil => exact leaves_branch I hOther
  | cons w ws ih =>
    obtain ⟨⟨hPatterns, hBody⟩, hRest⟩ := List.forall_mem_cons.mp hWhens
    apply (leaves_anyMatch hView I rounds hSubject hPatterns).bind
    exact fun _ => leaves_ite (leaves_branch I hBody) (ih hRest)

theorem leaves_choose (I : Interp V) (rounds : Nat) (isVariable : Bool) {subject : Eval K V V}
    {whens : List (When (Eval K V V))} {other : Option (Eval K V V)}
    (hSubject : subject.Leaves view)
    (hWhens : ∀ w ∈ whens, (∀ c ∈ w.patterns, c.Leaves view) ∧ ∀ d ∈ w.body, d.Leaves view)
    (hOther : ∀ d ∈ other, d.Leaves view) :
    (choose I rounds isVariable subject whens other).Leaves view :=
  leaves_ite (leaves_clauses hView I rounds hSubject hWhens hOther)
    (hSubject.bind fun _ => leaves_clauses hView I rounds (leaves_pure _) hWhens hOther)

end

end Eval

/-! ## Trees -/

/-- `P` is asked of a node, and of everything that runs with it, so that the view is left alone: by
what is stored into a target, and by a block whose body leaves it alone. -/
structure Node.Sheltered [DecidableEq K] (I : Interp V) (key : Var → K) (view : Machine K V → ρ)
    (P : Node → Prop) : Prop where
  inward : Eval.Inward view
  block : ∀ (params : List K) (body : Option (Eval K V V)), (∀ d ∈ body, d.Leaves view) →
    ∀ args, (Eval.runBlock I params body args).Leaves view
  part : ∀ n, P n → ¬ n.IsDefinition → ∀ m ∈ n.parts, P m
  assign : ∀ s target value, P (.assign s target value) → ∀ v : V, (target.store key v).Leaves view
  multi : ∀ s targets values, P (.multi s targets values) →
    ∀ t ∈ targets, ∀ v : V, (t.store key v).Leaves view

variable [DecidableEq K] {I : Interp V} {key : Var → K} {P : Node → Prop}

mutual
/-- A tree whose stores and blocks leave the view alone does so itself. -/
theorem Node.leaves_meaning (hP : Node.Sheltered I key view P) (rounds : Nat) :
    ∀ n : Node, P n → (n.meaning I key rounds).Leaves view
  | .atom _ a, _ => by
    rw [Node.meaning]
    cases a <;> exact fun _ => rfl
  | .var _ v, _ => by
    rw [Node.meaning]
    exact Eval.leaves_ite (Eval.leaves_throw _) fun _ => rfl
  | .seq _ stmts, h => by
    rw [Node.meaning]
    exact Eval.leaves_seq I (leaves_listMeaning hP rounds stmts (hP.part _ h id))
  | .cond _ form test body other, h => by
    have hParts := hP.part _ h id
    simp only [Node.parts, List.forall_mem_cons, List.forall_mem_append, Option.mem_toList]
      at hParts
    rw [Node.meaning]
    exact Eval.leaves_cond I form (test.leaves_meaning hP rounds hParts.1)
      (leaves_optionMeaning hP rounds body hParts.2.1)
      (leaves_optionMeaning hP rounds other hParts.2.2)
  | .loop _ test body, h => by
    have hParts := hP.part _ h id
    simp only [Node.parts, List.forall_mem_cons, Option.mem_toList] at hParts
    rw [Node.meaning]
    exact Eval.leaves_loop I (test.leaves_meaning hP rounds hParts.1)
      (Eval.leaves_branch I (leaves_optionMeaning hP rounds body hParts.2)) rounds
  | .choose _ subject whens other, h => by
    have hParts := hP.part _ h id
    simp only [Node.parts, List.forall_mem_cons, List.forall_mem_append, Option.mem_toList]
      at hParts
    rw [Node.meaning]
    refine Eval.leaves_choose hP.inward I rounds _ (subject.leaves_meaning hP rounds hParts.1)
      (leaves_whensMeaning hP rounds whens fun w hw => ⟨fun n hn => ?_, fun n hn => ?_⟩)
      (leaves_optionMeaning hP rounds other hParts.2.2)
    · exact hParts.2.1 n (List.mem_flatMap.mpr ⟨w, hw, List.mem_append_left _ hn⟩)
    · exact hParts.2.1 n (List.mem_flatMap.mpr ⟨w, hw, List.mem_append_right _
        (Option.mem_toList.mpr hn)⟩)
  | .logic _ op left right, h => by
    have hParts := hP.part _ h id
    rw [Node.meaning]
    exact Eval.leaves_logic I op (left.leaves_meaning hP rounds (hParts _ (.head _)))
      (right.leaves_meaning hP rounds (hParts _ (.tail _ (.head _))))
  | .jump _ kind value, h => by
    have hParts := hP.part _ h id
    simp only [Node.parts, Option.mem_toList] at hParts
    rw [Node.meaning]
    exact (Eval.leaves_branch I (leaves_optionMeaning hP rounds value hParts)).bind
      fun _ => Eval.leaves_throw _
  | .assign s target value, h => by
    have hValue := hP.part _ h id value (.tail _ (.head _))
    rw [Node.meaning]
    exact (value.leaves_meaning hP rounds hValue).bind fun v =>
      (hP.assign s target value h v).bind fun _ => Eval.leaves_pure _
  | .multi s targets values, h => by
    have hValues : ∀ n ∈ values, P n := fun n hn =>
      hP.part _ h id n (List.mem_append_right _ hn)
    rw [Node.meaning]
    refine (Eval.leaves_all (leaves_listMeaning hP rounds values hValues)).bind fun vs =>
      (Eval.leaves_storeAll I ?_ vs).bind fun _ => Eval.leaves_pure _
    intro store hStore v
    obtain ⟨t, ht, rfl⟩ := List.mem_map.mp hStore
    exact hP.multi s targets values h t ht v
  | .call _ receiver name args none, h => by
    have hParts := hP.part _ h id
    simp only [Node.parts, List.forall_mem_append, Option.mem_toList] at hParts
    rw [Node.meaning]
    exact Eval.leaves_call hP.inward I rounds name
      (leaves_optionMeaning hP rounds receiver hParts.1)
      (leaves_listMeaning hP rounds args hParts.2.1) nofun
  | .call _ receiver name args (some ⟨params, body⟩), h => by
    have hParts := hP.part _ h id
    simp only [Node.parts, List.forall_mem_append, Option.mem_toList] at hParts
    rw [Node.meaning]
    refine Eval.leaves_call hP.inward I rounds name
      (leaves_optionMeaning hP rounds receiver hParts.1)
      (leaves_listMeaning hP rounds args hParts.2.1) ?_
    rintro _ ⟨⟩
    exact hP.block _ _ (leaves_optionMeaning hP rounds body hParts.2.2)
  | .isA _ subject type, h => by
    rw [Node.meaning]
    exact (subject.leaves_meaning hP rounds (hP.part _ h id _ (.head _))).bind
      fun _ => Eval.leaves_pure _
  | .define .., _ | .interp .., _ | .range .., _ | .regex .., _ | .array .., _ | .hash .., _
  | .require .., _ => by
    rw [Node.meaning]
    exact Eval.leaves_throw _

theorem leaves_optionMeaning (hP : Node.Sheltered I key view P) (rounds : Nat) :
    ∀ n : Option Node, (∀ m ∈ n, P m) → ∀ d ∈ optionMeaning I key rounds n, d.Leaves view
  | none, _ => nofun
  | some n, h => by
    rintro d ⟨⟩
    exact n.leaves_meaning hP rounds (h n rfl)

theorem leaves_listMeaning (hP : Node.Sheltered I key view P) (rounds : Nat) :
    ∀ ns : List Node, (∀ n ∈ ns, P n) → ∀ c ∈ listMeaning I key rounds ns, c.Leaves view
  | [], _ => nofun
  | n :: ns, h => by
    obtain ⟨hFirst, hRest⟩ := List.forall_mem_cons.mp h
    exact List.forall_mem_cons.mpr
      ⟨n.leaves_meaning hP rounds hFirst, leaves_listMeaning hP rounds ns hRest⟩

theorem leaves_whensMeaning (hP : Node.Sheltered I key view P) (rounds : Nat) :
    ∀ ws : List (When Node), (∀ w ∈ ws, (∀ n ∈ w.patterns, P n) ∧ ∀ n ∈ w.body, P n) →
      ∀ w ∈ whensMeaning I key rounds ws,
        (∀ c ∈ w.patterns, c.Leaves view) ∧ ∀ d ∈ w.body, d.Leaves view
  | [], _ => nofun
  | ⟨patterns, body⟩ :: ws, h => by
    obtain ⟨⟨hPatterns, hBody⟩, hRest⟩ := List.forall_mem_cons.mp h
    exact List.forall_mem_cons.mpr ⟨⟨leaves_listMeaning hP rounds patterns hPatterns,
      leaves_optionMeaning hP rounds body hBody⟩, leaves_whensMeaning hP rounds ws hRest⟩
end

end CoreTree
