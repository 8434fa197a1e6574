import CoreTree.Proofs.Flow.Flag
import CoreTree.Proofs.Preservation

/-! # What is cut off

A sequence is normalized up to the first statement that ends, and what comes behind it is dropped.
It could not have run: whatever calls, definitions and literals do, a tree that ends never
completes.
-/
namespace CoreTree
set_option autoImplicit false

/-- The statements up to the first one that ends. -/
def untilEnd : List Node → List Node
  | [] => []
  | n :: ns => if n.ends then [n] else n :: untilEnd ns

/-! ## Normalizing a sequence -/

theorem Norm.Gives.bind_congr {α β : Type} {act : Norm α} {P : α → Prop} {f g : α → Norm β}
    (h : act.Gives P) (hNext : ∀ a, P a → f a = g a) : act >>= f = act >>= g := by
  refine Norm.ext fun st => ?_
  rw [EStateM.run_bind, EStateM.run_bind]
  cases hAct : act.run st with
  | ok a st' => exact congrFun (congrArg EStateM.run (hNext a (h st a st' hAct))) st'
  | error e st' => rfl

/-- The trees one after another, each with what it comes to. -/
def outcomes (answer : RequireHandler) (ns : List Node) : Norm (List Outcome) :=
  ns.mapM fun n => (n.pending answer).run

theorem statements_eq (answer : RequireHandler) (ns : List Node) :
    Pending.statements (pendingList answer ns) = do
      let os ← outcomes answer (untilEnd ns)
      return (os.flatMap (·.node.statements), listEnds ns) := by
  induction ns with
  | nil => rfl
  | cons n ns ih =>
    rw [pendingList, Pending.statements, untilEnd, listEnds]
    cases hEnds : n.ends with
    | true =>
      rw [if_pos rfl, outcomes, List.mapM_cons, List.mapM_nil]
      simp only [pure_bind, bind_assoc, List.flatMap_cons, List.flatMap_nil, List.append_nil,
        Bool.true_or]
      refine (n.tells_pending answer).bind_congr fun o ho => ?_
      rw [if_pos (ho.trans hEnds)]
    | false =>
      rw [if_neg Bool.false_ne_true, outcomes, List.mapM_cons]
      simp only [pure_bind, bind_assoc, List.flatMap_cons, Bool.false_or]
      refine (n.tells_pending answer).bind_congr fun o ho => ?_
      rw [if_neg (by rw [ho, hEnds]; exact Bool.false_ne_true), ih]
      simp only [pure_bind, bind_assoc]
      rfl

theorem run_seq (answer : RequireHandler) (s : Span) (stmts : List Node) :
    ((Node.seq s stmts).pending answer).run = do
      let os ← outcomes answer (untilEnd stmts)
      return ⟨.ofStatements s (os.flatMap (·.node.statements)), listEnds stmts⟩ := by
  show Pending.statements (pendingList answer stmts) >>= _ = _
  rw [statements_eq]
  simp only [pure_bind, bind_assoc]

/-! ## Running a sequence -/

variable {K V : Type} {I : Interp V} {rounds : Nat}

namespace Eval

variable {α β : Type}

/-- From no machine does the step give a value. -/
def Never (c : Eval K V α) : Prop := ∀ m a m', c.on m ≠ (.ok a, m')

theorem Never.exists_exit {c : Eval K V α} (h : c.Never) (m : Machine K V) :
    ∃ e m', c.on m = (.error e, m') := by
  rcases hc : c.on m with ⟨e | a, m'⟩
  · exact ⟨e, m', rfl⟩
  · exact absurd hc (h m a m')

theorem Never.bind {c : Eval K V α} (h : c.Never) (f : α → Eval K V β) : (c >>= f).Never := by
  intro m a m'
  obtain ⟨e, m₁, hc⟩ := h.exists_exit m
  rw [on_bind_of_error hc]
  exact nofun

theorem never_bind {c : Eval K V α} {f : α → Eval K V β} (h : ∀ a, (f a).Never) :
    (c >>= f).Never := by
  intro m b m'
  rcases hc : c.on m with ⟨e | a, m₁⟩
  · rw [on_bind_of_error hc]
    exact nofun
  · rw [on_bind_of_ok hc]
    exact h a m₁ b m'

theorem never_ite {p : Prop} [Decidable p] {c d : Eval K V α} (hc : c.Never) (hd : d.Never) :
    Never (if p then c else d) := by
  split
  · exact hc
  · exact hd

theorem never_seq {cs : List (Eval K V V)} (h : ∃ c ∈ cs, c.Never) : (seq I cs).Never := by
  induction cs with
  | nil => exact absurd h (by simp)
  | cons c cs ih =>
    cases cs with
    | nil =>
      obtain ⟨d, hd, hNever⟩ := h
      rwa [← List.mem_singleton.mp hd]
    | cons c' cs =>
      obtain ⟨d, hd, hNever⟩ := h
      rcases List.mem_cons.mp hd with rfl | hd
      · exact hNever.bind _
      · exact never_bind fun _ => ih ⟨d, hd, hNever⟩

theorem never_cond (form : CondForm) (test : Eval K V V) {body other : Eval K V V}
    (hBody : body.Never) (hOther : other.Never) :
    (cond I form test (some body) (some other)).Never := by
  cases form with
  | whenTrue => exact never_bind fun _ => never_ite hBody hOther
  | whenFalse => exact never_bind fun _ => never_ite hOther hBody

theorem never_clauses (subject : Eval K V V) {whens : List (When (Eval K V V))}
    (h : ∀ w ∈ whens, ∃ c, w.body = some c ∧ c.Never) {other : Eval K V V} (hOther : other.Never) :
    (clauses I rounds subject whens (some other)).Never := by
  induction whens with
  | nil => exact hOther
  | cons w ws ih =>
    obtain ⟨c, hBody, hNever⟩ := h w (.head _)
    rw [clauses, hBody]
    exact never_bind fun _ => never_ite hNever (ih fun w' hw' => h w' (.tail _ hw'))

theorem never_choose (isVariable : Bool) (subject : Eval K V V) {whens : List (When (Eval K V V))}
    (h : ∀ w ∈ whens, ∃ c, w.body = some c ∧ c.Never) {other : Eval K V V} (hOther : other.Never) :
    (choose I rounds isVariable subject whens (some other)).Never :=
  never_ite (never_clauses subject h hOther) (never_bind fun v => never_clauses (pure v) h hOther)

theorem never_jump (kind : JumpKind) (value : Option (Eval K V V)) : (jump I kind value).Never :=
  never_bind fun _ => nofun

theorem ext {c d : Eval K V α} (h : ∀ m, c.on m = d.on m) : c = d := funext h

/-- What stands behind a step that never completes does not matter. -/
theorem Never.seq_cons {c : Eval K V V} (h : c.Never) (cs : List (Eval K V V)) :
    seq I (c :: cs) = c := by
  cases cs with
  | nil => rfl
  | cons c' cs =>
    refine ext fun m => ?_
    obtain ⟨e, m', hc⟩ := h.exists_exit m
    rw [hc]
    exact on_bind_of_error hc

end Eval

/-- What trees do, of which this much is known: a sequence, a conditional, a `case` and a jump do
what they do with their parts. Calls, definitions, literals and all the rest may do anything. -/
structure Reading (K : Type) {V : Type} (I : Interp V) (rounds : Nat) where
  run : Node → Eval K V V
  seq : ∀ s stmts, run (.seq s stmts) = .seq I (stmts.map run)
  cond : ∀ s form test body other, run (.cond s form test body other) =
    .cond I form (run test) (body.map run) (other.map run)
  choose : ∀ s subject whens other, run (.choose s subject whens other) =
    .choose I rounds subject.isVariable (run subject)
      (whens.map fun w => ⟨w.patterns.map run, w.body.map run⟩) (other.map run)
  jump : ∀ s kind value, run (.jump s kind value) = .jump I kind (value.map run)

namespace Reading

mutual
theorem never_of_ends (R : Reading K I rounds) : ∀ n : Node, n.ends = true → (R.run n).Never
  | .seq s stmts, h => by
    obtain ⟨n, hn, hNever⟩ := never_of_listEnds R stmts h
    rw [R.seq]
    exact Eval.never_seq ⟨_, List.mem_map_of_mem hn, hNever⟩
  | .cond s form test body other, h => by
    obtain ⟨hBody, hOther⟩ := Bool.and_eq_true_iff.mp h
    obtain ⟨b, rfl, hBodyNever⟩ := never_of_optionEnds R body hBody
    obtain ⟨o, rfl, hOtherNever⟩ := never_of_optionEnds R other hOther
    rw [R.cond]
    exact Eval.never_cond form _ hBodyNever hOtherNever
  | .choose s subject whens other, h => by
    obtain ⟨hWhens, hOther⟩ := Bool.and_eq_true_iff.mp h
    obtain ⟨o, rfl, hOtherNever⟩ := never_of_optionEnds R other hOther
    rw [R.choose]
    refine Eval.never_choose _ _ (fun w hw => ?_) hOtherNever
    obtain ⟨w, hMem, rfl⟩ := List.mem_map.mp hw
    obtain ⟨b, hb, hNever⟩ := never_of_whensEnd R whens hWhens w hMem
    exact ⟨_, congrArg (Option.map R.run) hb, hNever⟩
  | .jump s kind value, _ => by
    rw [R.jump]
    exact Eval.never_jump kind _

theorem never_of_optionEnds (R : Reading K I rounds) : ∀ n : Option Node, optionEnds n = true →
    ∃ m, n = some m ∧ (R.run m).Never
  | none, h => nomatch h
  | some n, h => ⟨n, rfl, never_of_ends R n h⟩

theorem never_of_listEnds (R : Reading K I rounds) : ∀ ns : List Node, listEnds ns = true →
    ∃ n ∈ ns, (R.run n).Never
  | [], h => nomatch h
  | n :: ns, h => by
    rcases Bool.or_eq_true_iff.mp h with h | h
    · exact ⟨n, .head _, never_of_ends R n h⟩
    · obtain ⟨m, hm, hNever⟩ := never_of_listEnds R ns h
      exact ⟨m, .tail _ hm, hNever⟩

theorem never_of_whensEnd (R : Reading K I rounds) : ∀ ws : List (When Node),
    whensEnd ws = true → ∀ w ∈ ws, ∃ m, w.body = some m ∧ (R.run m).Never
  | [], _ => nofun
  | ⟨_, body⟩ :: ws, h => by
    obtain ⟨hBody, hRest⟩ := Bool.and_eq_true_iff.mp h
    intro w hw
    rcases List.mem_cons.mp hw with rfl | hw
    · exact never_of_optionEnds R body hBody
    · exact never_of_whensEnd R ws hRest w hw
end

/-- The statements that are cut off do nothing. -/
theorem seq_untilEnd (R : Reading K I rounds) (ns : List Node) :
    Eval.seq I ((untilEnd ns).map R.run) = Eval.seq I (ns.map R.run) := by
  induction ns with
  | nil => rfl
  | cons n ns ih =>
    rw [untilEnd]
    cases hEnds : n.ends with
    | true => exact ((R.never_of_ends n hEnds).seq_cons _).symm
    | false =>
      rw [if_neg Bool.false_ne_true]
      cases ns with
      | nil => rfl
      | cons m ns =>
        have hCons : ∃ ms, untilEnd (m :: ns) = m :: ms := by
          rw [untilEnd]
          split <;> exact ⟨_, rfl⟩
        obtain ⟨ms, hms⟩ := hCons
        rw [hms] at ih ⊢
        exact congrArg (R.run n >>= fun _ => ·) ih

end Reading

theorem whensMeaning_eq [DecidableEq K] (key : Var → K) (ws : List (When Node)) :
    whensMeaning I key rounds ws = ws.map fun w =>
      ⟨w.patterns.map fun n => n.meaning I key rounds,
        w.body.map fun n => n.meaning I key rounds⟩ := by
  induction ws with
  | nil => rfl
  | cons w ws ih =>
    rw [List.map_cons, ← ih, ← listMeaning_eq_map, ← optionMeaning_eq_map]
    rfl

/-- The meaning that trees have by name or by version is one reading. -/
def Reading.meaning [DecidableEq K] (I : Interp V) (key : Var → K) (rounds : Nat) :
    Reading K I rounds where
  run n := n.meaning I key rounds
  seq _ stmts := congrArg (Eval.seq I) (listMeaning_eq_map I key rounds stmts)
  cond _ form test body other := congrArg₂ (Eval.cond I form (test.meaning I key rounds))
    (optionMeaning_eq_map I key rounds body) (optionMeaning_eq_map I key rounds other)
  choose _ subject whens other :=
    congrArg₂ (Eval.choose I rounds subject.isVariable (subject.meaning I key rounds))
      (whensMeaning_eq key whens) (optionMeaning_eq_map I key rounds other)
  jump _ kind value := congrArg (Eval.jump I kind) (optionMeaning_eq_map I key rounds value)

/-- What normalization finds to end and what it drops is told by the tree alone: by no scope, no
program, no file and not by what a flag held that all calls share. What it drops could not have
run. -/
theorem truncation_structural (answer : RequireHandler) :
    (∀ (n : Node) st o st', (n.pending answer).run.run st = .ok o st' → o.ends = n.ends) ∧
    (∀ file n st flag o st' flag', Flagged file (.transform n) st flag o st' flag' ↔
      flag' = n.ends ∧
        (n.pending (answerRequire st.program.loader.files.length file)).run.run st = .ok o st') ∧
    (∀ s stmts, ((Node.seq s stmts).pending answer).run = do
      let os ← outcomes answer (untilEnd stmts)
      return ⟨.ofStatements s (os.flatMap (·.node.statements)), listEnds stmts⟩) ∧
    ∀ (K V : Type) (I : Interp V) (rounds : Nat) (R : Reading K I rounds),
      (∀ n, n.ends = true → (R.run n).Never) ∧
      ∀ s stmts, R.run (.seq s (untilEnd stmts)) = R.run (.seq s stmts) := by
  refine ⟨fun n st o st' h => n.tells_pending answer st o st' h,
    fun file n st flag o st' flag' => flagged_iff flag flag', run_seq answer,
    fun K V I rounds R => ⟨R.never_of_ends, fun s stmts => ?_⟩⟩
  rw [R.seq, R.seq, R.seq_untilEnd]

namespace Sample

/-- `if ask() then return else next end ; total` -/
def leaving : Node :=
  .seq .nowhere [.cond .nowhere .whenTrue (ask []) (some (.jump .nowhere .ret none))
    (some (.jump .nowhere .next none)), readVar total]

theorem leaving_cut_off : ∃ o st',
    (leaving.pending (answerRequire 0 none)).run.run ⟨program, .empty⟩ = .ok o st' ∧
    leaving.ends = true ∧ o.ends = true ∧ (leaving.named interp 0).Never := by
  obtain ⟨o, st', hRun⟩ : ∃ o st', (leaving.pending (answerRequire 0 none)).run.run
      ⟨program, .empty⟩ = .ok o st' := ⟨_, _, rfl⟩
  obtain ⟨hTells, -, -, hReadings⟩ := truncation_structural (answerRequire 0 none)
  have hEnds : leaving.ends = true := rfl
  exact ⟨o, st', hRun, hEnds, (hTells _ _ _ _ hRun).trans hEnds,
    (hReadings _ _ interp 0 (.meaning interp Var.name 0)).1 leaving hEnds⟩

end Sample

end CoreTree
