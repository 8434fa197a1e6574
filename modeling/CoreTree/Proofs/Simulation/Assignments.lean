import CoreTree.Proofs.Simulation.Statements

/-! # Assignments that simulate

By names a write replaces the value of a variable; by versions it makes a version that the
scope reads from then on. A value saved in a fresh temporary stays there.
-/
namespace CoreTree
set_option autoImplicit false

variable {V : Type} {C : Setting V} {held : Held V}

namespace Pending

/-- The pending tree is a target, and to write it stores a value as `store` does. -/
def TargetMeans (C : Setting V) (p : Pending) (store : V → Eval Symbol V Unit) : Prop :=
  (∀ s path, p.source ≠ .atom s (.const path)) ∧
  ∀ held v, p.target.Simulates C held (store v) fun n => n.store Var.cell v

theorem targetMeans_var {s : Span} {x : Var} (hOut : x.out = false) :
    (var s x).TargetMeans C (Eval.writeLocal x.name) := by
  refine ⟨nofun, fun held v st hReady => ?_⟩
  apply Norm.ensures_writeVar_bind
  refine Norm.ensures_pure ⟨⟨Scope.follows_write hReady.sound _, fun _ h => h⟩, ?_⟩
  intro m w hAgree
  have hStore : Node.store (V := V) Var.cell
      (.var s { x with version := (st.scope.write x.name).1 }) v =
        Eval.writeLocal (x.name, (st.scope.write x.name).1) v := if_neg (by simp [hOut])
  beta_reduce
  rw [hStore]
  exact .value (hAgree.write x.name v)

theorem targetMeans_field (s : Span) (f : Symbol) :
    (atom s (.field f)).TargetMeans C (Eval.writeField f) :=
  ⟨nofun, fun _ v => Norm.simulates_pure _ fun _ _ _ hAgree => hAgree.writeField f v⟩

theorem means_assign (s : Span) {target value : Pending} {store : V → Eval Symbol V Unit}
    {c : Eval Symbol V V} (hTarget : target.TargetMeans C store) (hValue : value.Means C held c) :
    (assign s target value).Means C held (.assign store c) := by
  have : Inhabited V := ⟨C.interp.nil⟩
  have hRun : (assign s target value).run =
      (do let v ← value.node; let t ← target.target; return (v, t)) >>= fun r =>
        pure ⟨.assign s r.2 r.1, false⟩ := by
    simp only [assign, bind_assoc, pure_bind]
    split
    · rename_i hConst
      exact absurd hConst (hTarget.1 _ _)
    · rfl
  refine means_of_action _ _ _ (fun held' hExtends => ?_) hRun (fun _ => rfl)
    fun _ => ⟨rfl, by simp⟩
  refine Norm.Simulates.bind (hValue.extend hExtends).node
    (l := fun v t => t.store Var.cell v >>= fun _ => pure v) (fun v => ?_) fun _ _ => rfl
  exact (hTarget.2 held' v).andThen fun _ => Setting.keeps_pure v

/-! ## Several targets -/

theorem targets_simulates {ps : List Pending} {stores : List (V → Eval Symbol V Unit)}
    (h : List.Forall₂ (fun p store => p.TargetMeans C store) ps stores) (vs : List V) :
    (targets ps).Simulates C held (Eval.storeAll C.interp stores vs)
      fun ns => Eval.storeAll C.interp (ns.map (Node.store Var.cell)) vs := by
  induction h generalizing vs with
  | nil => exact Norm.simulates_pure [] (Setting.keeps_pure ())
  | cons hp _ ih =>
    exact Norm.Simulates.bind (hp.2 held (vs.headD C.interp.nil)) (fun _ => ih vs.tail)
      fun _ _ => rfl

theorem means_multi (s : Span) {lefts values : List Pending}
    {stores : List (V → Eval Symbol V Unit)} {cs : List (Eval Symbol V V)}
    (hLefts : List.Forall₂ (fun p store => p.TargetMeans C store) lefts stores)
    (hValues : C.ListMeans held values cs) :
    (multi s lefts values).Means C held (.multi C.interp stores cs) := by
  have hRun : (multi s lefts values).run =
      (do let vs ← nodes values; let ts ← targets lefts; return (vs, ts)) >>= fun r =>
        pure ⟨.multi s r.2 r.1, false⟩ := by
    simp only [multi, bind_assoc, pure_bind]
  refine means_of_action _ (fun r => Eval.multi C.interp (r.2.map (Node.store Var.cell))
    (r.1.map C.run)) _ (fun held' hExtends => ?_) hRun (fun r => ?_) fun _ => ⟨rfl, nofun⟩
  · refine Norm.Simulates.bind (nodes_simulates (hValues.extend hExtends))
      (l := fun vs ts => Eval.storeAll C.interp (ts.map (Node.store Var.cell)) vs >>= fun _ =>
        pure (C.interp.pack vs)) (fun vs => ?_) fun _ _ => rfl
    exact (targets_simulates hLefts vs).andThen fun _ => Setting.keeps_pure _
  · rw [Setting.run, Node.versioned, Node.meaning, listMeaning_eq_map]
    rfl

/-! ## Saved values -/

theorem simulatesFrom_save {p : Pending} {c : Eval Symbol V V} (h : p.Means C held c) {t : Symbol}
    {st : NormalState} (hReady : C.Ready held st) :
    (save t p).SimulatesFrom C held c (fun v => held.keep t v) st := by
  apply Norm.Ensures.bind (h.node st hReady)
  rintro n st' ⟨hAdv, hRun⟩
  refine Norm.ensures_pure ⟨hAdv, splices_single _ _ _ rfl nofun, fun m w hAgree => ?_⟩
  show Related _ (c.on m) ((C.run n >>= fun v => .writeTemp t v >>= fun _ => pure v).on w)
  rw [← bind_pure c]
  refine (hRun m w hAgree).bind fun v m' w' hAgree' => .value ⟨rfl, ?_⟩
  refine ⟨hAgree'.reads, hAgree'.unset, fun u x hu => ?_, hAgree'.world⟩
  show Function.update w'.temps t v u = x
  replace hu : Function.update held t (some v) u = some x := hu
  rw [Function.update_apply] at hu ⊢
  split at hu
  · rename_i hEq
    rw [if_pos hEq]
    exact Option.some.inj hu
  · rename_i hNe
    rw [if_neg hNe]
    exact hAgree'.temps u x hu

end Pending

end CoreTree
