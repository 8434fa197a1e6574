import CoreTree.Proofs.Frame.Views

/-! # Runs that keep a local variable

What a run does not write it keeps, whether it gives a value or exits. A tree that spares a
variable keeps every cell of it. A block also keeps the cells of its own parameters, for what they
hid is back after each run.
-/
namespace CoreTree
set_option autoImplicit false

variable {K V α : Type} {k : K}

namespace Eval

/-- From every machine and whatever comes of it, the cell holds what it held before. -/
def Keeps (c : Eval K V α) (k : K) : Prop := ∀ m, (c.on m).2.locals k = m.locals k

theorem keeps_iff_leaves {c : Eval K V α} : c.Keeps k ↔ c.Leaves fun m => m.locals k := Iff.rfl

theorem inward_locals : Inward fun m : Machine K V => m.locals k := fun _ _ => rfl

theorem keeps_finishCall (I : Interp V) (rounds : Nat) (made : Event V)
    {block : Option (List V → Eval K V V)} (h : ∀ run ∈ block, ∀ args, (run args).Keeps k) :
    (finishCall I rounds made block).Keeps k :=
  leaves_finishCall inward_locals I rounds made h

variable [DecidableEq K]

theorem keeps_writeLocal {k' : K} (h : k' ≠ k) (v : V) : Keeps (writeLocal k' v) k := by
  intro m
  show Function.update m.locals k' v k = m.locals k
  exact Function.update_of_ne h.symm v m.locals

theorem on_bindParams (I : Interp V) (ks : List K) (args : List V) (m : Machine K V) :
    ∃ m', (bindParams I ks args).on m = (.ok (), m') ∧ ∀ k ∉ ks, m'.locals k = m.locals k := by
  induction ks generalizing args m with
  | nil => exact ⟨m, rfl, fun _ _ => rfl⟩
  | cons k ks ih =>
    obtain ⟨m', hRest, hLocals⟩ :=
      ih args.tail { m with locals := Function.update m.locals k (args.headD I.nil) }
    refine ⟨m', hRest, fun k' hk' => ?_⟩
    obtain ⟨hFirst, hOthers⟩ := List.ne_and_not_mem_of_not_mem_cons hk'
    exact (hLocals k' hOthers).trans (Function.update_of_ne hFirst _ _)

theorem keeps_runBlock (I : Interp V) {params : List K} {body : Option (Eval K V V)}
    (h : k ∈ params ∨ ∀ d ∈ body, d.Keeps k) (args : List V) :
    (runBlock I params body args).Keeps k := by
  intro m
  obtain ⟨m₁, hBind, hOthers⟩ := on_bindParams I params args m
  have hRun : ((runBlock I params body args).on m).2.locals k =
      if k ∈ params then m.locals k else ((branch I body).on m₁).2.locals k := by
    show ((bindParams I params args >>= fun _ => (branch I body).attempt >>= fun exit =>
      restore params m.locals >>= fun _ => _).on m).2.locals k = _
    rw [on_bind_of_ok hBind, on_bind_of_ok (on_attempt _ _)]
    -- nothing is done any more once the parameters are back
    generalize (branch I body).on m₁ = r
    obtain ⟨exit, m₂⟩ := r
    rcases exit with (⟨_ | _ | _, v⟩ | _) | v <;> rfl
  rw [hRun]
  split
  · rfl
  · rename_i hOther
    have hBody : (branch I body).Keeps k :=
      keeps_iff_leaves.mpr (leaves_branch I (h.resolve_left hOther))
    exact (hBody m₁).trans (hOthers k hOther)

end Eval

/-! ## Trees -/

variable [DecidableEq K] {allowed : Span → Symbol → Prop} {x : Symbol} {key : Var → K}

theorem Node.keeps_store (hKey : ∀ v, key v = k → v.name = x) {t : Node} (h : ¬ t.MayBe x) (v : V) :
    (t.store key v).Keeps k := by
  rw [Eval.keeps_iff_leaves]
  unfold Node.store
  split
  · exact Eval.leaves_ite (Eval.leaves_throw _)
      (Eval.keeps_writeLocal (fun hCell => h (hKey _ hCell)) v)
  · exact fun _ => rfl
  · exact fun _ => rfl
  · exact Eval.leaves_throw _

theorem Node.sheltered_spares (I : Interp V) (hKey : ∀ v, key v = k → v.name = x) :
    Node.Sheltered I key (fun m => m.locals k) (Node.Spares allowed x) where
  inward := Eval.inward_locals
  block _ _ hBody := Eval.keeps_runBlock I (.inr hBody)
  part n h := (Node.spares_iff n).mp h |>.2
  assign _ _ _ h := Node.keeps_store hKey (Node.spares_assign.mp h).1
  multi _ _ _ h t ht := Node.keeps_store hKey ((Node.spares_multi.mp h).1 t ht)

/-- A tree that spares a variable keeps every cell of it. -/
theorem Node.keeps_meaning (I : Interp V) (hKey : ∀ v, key v = k → v.name = x) (rounds : Nat)
    (n : Node) (h : n.Spares allowed x) : (n.meaning I key rounds).Keeps k :=
  n.leaves_meaning (Node.sheltered_spares I hKey) rounds h

theorem keeps_optionMeaning (I : Interp V) (hKey : ∀ v, key v = k → v.name = x) (rounds : Nat)
    (n : Option Node) (h : ∀ m ∈ n, m.Spares allowed x) :
    ∀ d ∈ optionMeaning I key rounds n, d.Keeps k :=
  leaves_optionMeaning (Node.sheltered_spares I hKey) rounds n h

end CoreTree
