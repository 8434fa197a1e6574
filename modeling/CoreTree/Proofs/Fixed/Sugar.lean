import CoreTree.Proofs.Fixed.Settled

/-! # What normalization comes to

A pending tree settles if, from every scope, it leaves the scope as it was and comes to a tree that
is fixed there, also when its statements are spliced into a sequence. A construct settles if its
parts do, sugar included.
-/
namespace CoreTree
set_option autoImplicit false

open CoreTree.Norm Node

namespace Node

/-- The tree is fixed, and so are the statements it is replaced by in a sequence. -/
structure Settled (sc : Scope) (n : Node) : Prop where
  fixed : n.Fixed sc
  statements : FixedStatements sc n.statements

variable {sc : Scope} {n : Node}

theorem untilEnd_append {ms : List Node} (h : listEnds ms = false) (ns : List Node) :
    untilEnd (ms ++ ns) = ms ++ untilEnd ns := by
  induction ms with
  | nil => rfl
  | cons m ms ih =>
    obtain ⟨hFirst, hRest⟩ := Bool.or_eq_false_iff.mp h
    rw [List.cons_append, untilEnd, if_neg (by rw [hFirst]; exact Bool.false_ne_true), ih hRest]
    rfl

theorem listEnds_statements (n : Node) : listEnds n.statements = n.ends := by
  unfold statements
  split
  · rfl
  · rfl
  · exact Bool.or_false _

theorem fixedStatements_single (h : n.Fixed sc) (hStatement : n.isStatement = true) :
    FixedStatements sc [n] where
  fixed := List.forall_mem_singleton.mpr ⟨hStatement, h⟩
  whole := by
    unfold untilEnd
    split <;> rfl

/-- Behind statements that do not end, others may stand. -/
theorem FixedStatements.append {ms ns : List Node} (hms : FixedStatements sc ms)
    (hEnds : listEnds ms = false) (hns : FixedStatements sc ns) :
    FixedStatements sc (ms ++ ns) where
  fixed := List.forall_mem_append.mpr ⟨hms.fixed, hns.fixed⟩
  whole := by rw [untilEnd_append hEnds, hns.whole]

theorem settled_of_fixed (h : n.Fixed sc) (hSeq : ∀ s stmts, n ≠ .seq s stmts) :
    n.Settled sc := by
  refine ⟨h, ?_⟩
  cases hn : n.isStatement with
  | true =>
    rw [statements_of_isStatement hn]
    exact fixedStatements_single h hn
  | false =>
    unfold isStatement at hn
    split at hn
    · exact ⟨nofun, rfl⟩
    · exact absurd rfl (hSeq _ _)
    · cases hn

theorem settled_ofStatements (s : Span) {ns : List Node} (h : FixedStatements sc ns) :
    (ofStatements s ns).Settled sc ∧ (ofStatements s ns).ends = listEnds ns := by
  match ns, h with
  | [], _ => exact ⟨settled_of_fixed (fixed_atom s _) nofun, rfl⟩
  | [n], h =>
    obtain ⟨hStatement, hFixed⟩ := h.fixed n (.head _)
    refine ⟨settled_of_fixed hFixed ?_, (Bool.or_false _).symm⟩
    rintro s stmts rfl
    cases hStatement
  | m :: n :: ns, h => exact ⟨⟨fixed_seq h (Nat.le_add_left 2 ns.length), h⟩, rfl⟩

end Node

/-- The outcome is settled, and its flag tells whether its tree ends. -/
structure Outcome.Settled (sc : Scope) (o : Outcome) : Prop where
  node : o.node.Settled sc
  ends : o.ends = o.node.ends

namespace Pending

/-- From every scope, the tree settles there. -/
def Settles (p : Pending) : Prop := ∀ sc, p.Comes .first sc fun _ o => o.Settled sc

variable {p left right : Pending} {ps : List Pending} {part : Option Pending} {sc : Scope}

theorem Settles.node (h : p.Settles) (sc : Scope) :
    p.ComesNode .first sc fun _ n => n.Settled sc :=
  (h sc).node fun _ _ ho => ho.node

/-- It is all of an outcome to be fixed if it is no sequence. -/
theorem outcome_settled {n : Node} {ends : Bool} (h : n.Fixed sc)
    (hSeq : ∀ s stmts, n ≠ .seq s stmts) (hEnds : ends = n.ends) :
    (⟨n, ends⟩ : Outcome).Settled sc := ⟨settled_of_fixed h hSeq, hEnds⟩

theorem settles_atom (s : Span) (a : Atom) : (atom s a).Settles :=
  fun _ => goes_pure (outcome_settled (fixed_atom s a) nofun rfl)

theorem settles_var (s : Span) {v : Var} (hOut : v.out = false) : (var s v).Settles := by
  intro sc
  refine (goes_useVar s hOut fun _ => trivial).bind fun w hw => goes_pure ?_
  obtain ⟨version, hVersion, rfl⟩ := hw
  exact outcome_settled (fixed_var hOut hVersion) nofun rfl

/-- What is left of a branch that settled. -/
theorem fixedBranch_of_settled {b : Option Outcome}
    (h : OptionComes (fun _ o => o.Settled sc) part b) :
    FixedBranch sc (b.bind (·.node.toOption)) ∧
      optionEnds (b.bind (·.node.toOption)) = b.any (·.ends) := by
  cases h with
  | none => exact ⟨fixedBranch_none, rfl⟩
  | @some p o ho =>
    show FixedBranch sc o.node.toOption ∧ optionEnds o.node.toOption = o.ends
    cases hNop : o.node.isNop with
    | true =>
      obtain ⟨s, hNode⟩ := (isNop_iff o.node).mp hNop
      rw [ho.ends, toOption, if_pos hNop, hNode]
      exact ⟨fixedBranch_none, rfl⟩
    | false =>
      rw [ho.ends, toOption, if_neg (by rw [hNop]; exact Bool.false_ne_true)]
      refine ⟨?_, rfl⟩
      rintro _ ⟨⟩
      exact ⟨ho.node.fixed, hNop⟩

theorem settles_cond (s : Span) (form : CondForm) (hTest : p.Settles) {body other : Option Pending}
    (hBody : ∀ p ∈ body, p.Settles) (hOther : ∀ p ∈ other, p.Settles) :
    (cond s form p body other).Settles := by
  have hCond : ∀ {onTrue onFalse : Option Pending}, (∀ p ∈ onTrue, p.Settles) →
      (∀ p ∈ onFalse, p.Settles) → (cond s .whenTrue p onTrue onFalse).Settles := by
    intro onTrue onFalse hTrue hFalse sc
    refine (goes_cond s (hTest.node sc) (fun p hp => hTrue p hp sc)
      fun p hp => hFalse p hp sc).mono ?_
    rintro _ ⟨t, b, e, ht, hb, he, rfl⟩
    obtain ⟨hThen, hThenEnds⟩ := fixedBranch_of_settled hb
    obtain ⟨hElse, hElseEnds⟩ := fixedBranch_of_settled he
    refine outcome_settled (fixed_cond ht.fixed hThen hElse) nofun ?_
    rw [Node.ends, hThenEnds, hElseEnds]
  cases form with
  | whenTrue => exact hCond hBody hOther
  | whenFalse => exact hCond hOther hBody

theorem settles_statements (h : ∀ p ∈ ps, p.Settles) (sc : Scope) :
    (statements ps).Goes .first sc sc fun r => FixedStatements sc r.1 ∧ r.2 = listEnds r.1 := by
  induction ps with
  | nil => exact goes_pure ⟨⟨nofun, rfl⟩, rfl⟩
  | cons p ps ih =>
    refine Goes.bind (h p (.head _) sc) fun o ho => ?_
    have hEnds : listEnds o.node.statements = o.ends := by
      rw [listEnds_statements, ho.ends]
    split
    · rename_i hTrue
      exact goes_pure ⟨ho.node.statements, (hEnds.trans hTrue).symm⟩
    · rename_i hFalse
      have hFalse := hEnds.trans (Bool.eq_false_of_not_eq_true hFalse)
      refine (ih fun q hq => h q (.tail _ hq)).bind fun r ⟨hr, hrEnds⟩ => goes_pure ?_
      refine ⟨ho.node.statements.append hFalse hr, ?_⟩
      rw [listEnds_eq, List.any_append, ← listEnds_eq, ← listEnds_eq, hFalse, Bool.false_or, hrEnds]

theorem settles_seq (s : Span) (h : ∀ p ∈ ps, p.Settles) : (seq s ps).Settles := by
  intro sc
  refine (settles_statements h sc).bind fun r ⟨hr, hEnds⟩ => goes_pure ?_
  obtain ⟨hSettled, hAll⟩ := settled_ofStatements s hr
  exact ⟨hSettled, hEnds.trans hAll.symm⟩

theorem settles_loop (s : Span) (hTest : p.Settles) (hBody : ∀ p ∈ part, p.Settles) :
    (loop s p part).Settles := by
  intro sc
  refine (goes_loop s (hTest.node sc) fun p hp => hBody p hp sc).mono ?_
  rintro _ ⟨t, b, ht, hb, rfl⟩
  exact outcome_settled (fixed_loop ht.fixed (fixedBranch_of_settled hb).1) nofun rfl

theorem fixed_of_rel {o : Option Node} {n : Option Node}
    (h : Option.Rel (fun _ n => n.Settled sc) o n) : ∀ m ∈ n, m.Fixed sc := by
  cases h with
  | none => exact nofun
  | some h =>
    rintro _ ⟨⟩
    exact h.fixed

theorem forall_of_forall₂ {P : Node → Prop} {ms ns : List Node}
    (h : List.Forall₂ (fun _ n => P n) ms ns) : ∀ n ∈ ns, P n := by
  induction h with
  | nil => exact nofun
  | cons h _ ih => exact List.forall_mem_cons.mpr ⟨h, ih⟩

theorem settles_jump (s : Span) (kind : JumpKind) (h : ∀ p ∈ part, p.Settles) :
    (jump s kind part).Settles := by
  intro sc
  refine (goes_jump s kind fun p hp => (h p hp).node sc).mono ?_
  rintro _ ⟨v, hv, rfl⟩
  exact outcome_settled (fixed_jump (fixed_of_rel hv)) nofun rfl

theorem settles_call (s : Span) (name : Symbol) {receiver : Option Pending}
    {block : Option (Block Pending)} (hReceiver : ∀ p ∈ receiver, p.Settles)
    (hArgs : ∀ p ∈ ps, p.Settles) (hBlock : ∀ b ∈ block, ∀ p ∈ b.body, p.Settles) :
    (call s receiver name ps block).Settles := by
  intro sc
  refine (goes_call s name (fun p hp => (hReceiver p hp).node sc)
    (fun p hp => (hArgs p hp).node sc)
    fun b hb p hp => hBlock b hb p hp (Scope.bindParams sc b.params).2).mono ?_
  rintro _ ⟨r, ns, b, hr, hns, hb, rfl⟩
  have hArgs := forall_of_forall₂ hns
  refine outcome_settled (fixed_call (fixed_of_rel hr) (fun n hn => (hArgs n hn).fixed) ?_)
    nofun rfl
  cases hb with
  | none => exact nofun
  | some hb =>
    obtain ⟨o, ho, rfl⟩ := hb
    rintro _ ⟨⟩
    exact (fixedBranch_of_settled ho).1

theorem settles_isA (s : Span) (type : ConstPath) (h : p.Settles) : (isA s p type).Settles := by
  intro sc
  refine (goes_isA s type (h.node sc)).mono ?_
  rintro _ ⟨n, hn, rfl⟩
  exact outcome_settled (fixed_isA hn.fixed) nofun rfl

theorem settles_definePlain (s : Span) (kind : DefKind) (name : Symbol) (params : List Symbol)
    (h : ∀ p ∈ part, p.Settles) : (definePlain s kind name params part).Settles := by
  intro sc
  refine (goes_definePlain s kind name params fun p hp =>
    (h p hp).node (Scope.ofParams params)).mono ?_
  rintro _ ⟨b, hb, rfl⟩
  refine outcome_settled (fixed_define fun n hn => ?_) nofun rfl
  obtain ⟨m, hm, hOption⟩ := Option.bind_eq_some_iff.mp hn
  obtain ⟨rfl, hNop⟩ := (toOption_eq_some_iff m n).mp hOption
  exact ⟨fixed_of_rel hb m hm, hNop⟩

/-! ## Targets -/

/-- As the target of an assignment the tree stays what it is: a constant stays that constant, and
anything else comes down neither to a constant nor to a variable. -/
structure SettlesTarget (p : Pending) : Prop where
  settles : p.Settles
  isVar : p.source.isVar = false
  const : ∀ t path, p.source = .atom t (.const path) → p.run.Gives fun o => o.node = p.source
  other : (∀ t path, p.source ≠ .atom t (.const path)) →
    p.run.Gives fun o => o.node.isVar = false ∧ ∀ t path, o.node ≠ .atom t (.const path)

theorem Comes.gives {C : Course} {R : Node → Outcome → Prop} {G : Outcome → Prop}
    (h : p.Comes C sc R) (hGives : p.run.Gives G) : p.Comes C sc fun n o => R n o ∧ G o :=
  Goes.gives h hGives

theorem settles_assign (s : Span) (hTarget : left.SettlesTarget) (hValue : right.Settles) :
    (assign s left right).Settles := by
  intro sc
  by_cases hConst : ∃ t path, left.source = .atom t (.const path)
  · obtain ⟨t, path, hSource⟩ := hConst
    have hLeft : left.ComesNode .first sc fun _ n => n = left.source :=
      ((hTarget.settles sc).gives (hTarget.const t path hSource)).node fun _ _ ho => ho.2
    refine (goes_assign_const s hLeft hSource (hValue.node .empty)).mono ?_
    rintro _ ⟨n, v, rfl, hv, rfl⟩
    rw [hSource]
    exact outcome_settled (fixed_assign_const hv.fixed) nofun rfl
  · have hOther : ∀ t path, left.source ≠ .atom t (.const path) :=
      fun t path hSource => hConst ⟨t, path, hSource⟩
    have hLeft : left.ComesNode .first sc fun _ n => n.Settled sc ∧ n.isVar = false ∧
        ∀ t path, n ≠ .atom t (.const path) :=
      ((hTarget.settles sc).gives (hTarget.other hOther)).node fun _ _ ho => ⟨ho.1.node, ho.2⟩
    refine (goes_assign s hLeft hTarget.isVar hOther (hValue.node sc)).mono ?_
    rintro _ ⟨n, v, ⟨hn, hVar, hNot⟩, hv, rfl⟩
    exact outcome_settled (fixed_assign hn.fixed hVar hNot hv.fixed) nofun rfl

/-- Among several targets it is enough that none comes down to a variable. -/
theorem settles_multi (s : Span) {lefts values : List Pending}
    (hLefts : ∀ p ∈ lefts, p.Settles ∧ p.source.isVar = false ∧
      p.run.Gives fun o => o.node.isVar = false)
    (hValues : ∀ p ∈ values, p.Settles) : (multi s lefts values).Settles := by
  intro sc
  have hTargets : ∀ p ∈ lefts, p.ComesNode .first sc fun _ n => n.Settled sc ∧ n.isVar = false :=
    fun p hp => (((hLefts p hp).1 sc).gives (hLefts p hp).2.2).node fun _ _ ho => ⟨ho.1.node, ho.2⟩
  refine (goes_multi s hTargets (fun p hp => (hLefts p hp).2.1)
    fun p hp => (hValues p hp).node sc).mono ?_
  rintro _ ⟨ts, vs, hts, hvs, rfl⟩
  have hTargets := forall_of_forall₂ hts
  have hValues := forall_of_forall₂ hvs
  exact outcome_settled (fixed_multi (fun n hn => (hTargets n hn).1.fixed)
    (fun n hn => (hTargets n hn).2) fun n hn => (hValues n hn).fixed) nofun rfl

theorem settlesTarget_temp (s : Span) (t : Symbol) : (temp s t).SettlesTarget where
  settles := settles_atom s _
  isVar := rfl
  const := nofun
  other _ := gives_pure ⟨rfl, nofun⟩

/-! ## Logic and clauses -/

theorem settles_save (t : Symbol) (h : p.Settles) : (save t p).Settles :=
  settles_assign p.span (settlesTarget_temp p.span t) h

theorem settles_temp (s : Span) (t : Symbol) : (temp s t).Settles := settles_atom s _

theorem settles_and (s : Span) (hLeft : left.Settles) (hRight : right.Settles) :
    (and s left right).Settles := by
  intro sc
  show Goes _ _ _ (if _ then _ else _) _
  split
  · exact settles_cond s .whenTrue hLeft (forall_some hRight) (forall_some hLeft) sc
  · exact goes_freshTemp.bind fun t _ => settles_cond s .whenTrue (settles_save t hLeft)
      (forall_some hRight) (forall_some (settles_temp _ t)) sc

theorem settles_or (s : Span) (hLeft : left.Settles) (hRight : right.Settles) :
    (or s left right).Settles := by
  intro sc
  show Goes _ _ _ (if _ then _ else _) _
  split
  · exact settles_cond s .whenTrue hLeft (forall_some hLeft) (forall_some hRight) sc
  · exact goes_freshTemp.bind fun t _ => settles_cond s .whenTrue (settles_save t hLeft)
      (forall_some (settles_temp _ t)) (forall_some hRight) sc

theorem settles_logic (s : Span) (op : LogicOp) (hLeft : left.Settles) (hRight : right.Settles) :
    (logic s op left right).Settles := by
  cases op with
  | and => exact settles_and s hLeft hRight
  | or => exact settles_or s hLeft hRight

theorem settles_matchTest (hScrutinee : left.Settles) (hPattern : p.Settles) :
    (matchTest left p).Settles :=
  settles_call p.span .caseEq (forall_some hPattern)
    (List.forall_mem_singleton.mpr hScrutinee) nofun

theorem settles_clauseTest (s : Span) (hScrutinee : left.Settles) (h : ∀ p ∈ ps, p.Settles) :
    (clauseTest s left ps).Settles := by
  cases ps with
  | nil => exact settles_atom s _
  | cons pattern patterns =>
    have hTests : ∀ p ∈ patterns.map (matchTest left), p.Settles := by
      intro p hp
      obtain ⟨q, hq, rfl⟩ := List.mem_map.mp hp
      exact settles_matchTest hScrutinee (h q (.tail _ hq))
    have hFirst := settles_matchTest hScrutinee (h pattern (.head _))
    show Settles (List.foldl _ _ _)
    generalize patterns.map (matchTest left) = tests at hTests ⊢
    generalize matchTest left pattern = acc at hFirst ⊢
    induction tests generalizing acc with
    | nil => exact hFirst
    | cons test tests ih =>
      exact ih (fun p hp => hTests p (.tail _ hp)) _ (settles_or _ hFirst (hTests test (.head _)))

theorem settles_clauseChain (s : Span) (hScrutinee : left.Settles) {whens : List (When Pending)}
    (hWhens : ∀ w ∈ whens, (∀ p ∈ w.patterns, p.Settles) ∧ ∀ p ∈ w.body, p.Settles)
    (hOther : ∀ p ∈ part, p.Settles) : (clauseChain s left whens part).Settles := by
  refine clauseChain_of_forall s (settles_atom s _) hOther fun w hw rest hRest => ?_
  obtain ⟨hPatterns, hBody⟩ := hWhens w hw
  exact settles_cond s .whenTrue (settles_clauseTest s hScrutinee hPatterns) hBody hRest

theorem settles_choose (s : Span) (hSubject : p.Settles) {whens : List (When Pending)}
    (hWhens : ∀ w ∈ whens, (∀ p ∈ w.patterns, p.Settles) ∧ ∀ p ∈ w.body, p.Settles)
    (hOther : ∀ p ∈ part, p.Settles) : (choose s p whens part).Settles := by
  intro sc
  show Goes _ _ _ (if _ then _ else _) _
  split
  · exact settles_clauseChain s hSubject hWhens hOther sc
  · refine goes_freshTemp.bind fun t _ => settles_seq s (List.forall_mem_cons.mpr ⟨?_, ?_⟩) sc
    · exact settles_save t hSubject
    · exact List.forall_mem_singleton.mpr
        (settles_clauseChain s (settles_temp _ t) hWhens hOther)

/-! ## Default values -/

theorem settles_forwarders (s : Span) (kind : DefKind) (name : Symbol) (given : List Symbol)
    {params : List (Param Pending)} (h : ∀ x ∈ params, ∀ p ∈ x.default, p.Settles) :
    ∀ p ∈ forwarders s kind name given params, p.Settles := by
  refine forall_forwarders s kind name given fun given next hNext => ?_
  have hArgs := forall_forwarded s given (fun _ => settles_var s rfl) (settles_atom s _)
    (h next hNext)
  exact settles_definePlain s kind name given (forall_some (settles_call s name nofun hArgs nofun))

theorem settles_define (s : Span) (kind : DefKind) (name : Symbol) {params : List (Param Pending)}
    (hParams : ∀ x ∈ params, ∀ p ∈ x.default, p.Settles) (hBody : ∀ p ∈ part, p.Settles) :
    (define s kind name params part).Settles := by
  intro sc
  have hWhole := settles_definePlain s kind name (params.map (·.name)) hBody
  show Goes _ _ _ (if _ then _ else _) _
  split
  · refine settles_seq s (List.forall_mem_append.mpr ⟨?_, List.forall_mem_singleton.mpr hWhole⟩) sc
    exact settles_forwarders s kind name _ fun x hx =>
      hParams x ((List.dropWhile_sublist _).subset hx)
  · exact hWhole sc

/-! ## Literals -/

theorem settles_interp (s : Span) (h : ∀ p ∈ ps, p.Settles) : (interp s ps).Settles := by
  intro sc
  refine (goes_nodes fun p hp => (h p hp).node sc).bind fun ns hns => goes_pure ?_
  have hPieces := forall_of_forall₂ hns
  refine outcome_settled (fixed_send ?_ nofun) nofun rfl
  have hBuilder : (Node.send s (.globalConst s .stringBuilder) .newName []).Fixed sc :=
    fixed_send (fixed_atom s _) nofun
  clear hns
  generalize Node.send s (.globalConst s .stringBuilder) .newName [] = acc at hBuilder ⊢
  induction ns generalizing acc with
  | nil => exact hBuilder
  | cons n ns ih =>
    exact ih (fun m hm => hPieces m (.tail _ hm)) _
      (fixed_send hBuilder (List.forall_mem_singleton.mpr (hPieces n (.head _)).fixed))

theorem settles_range (s : Span) (hFirst : left.Settles) (hLast : right.Settles)
    (exclusive : Bool) : (range s left right exclusive).Settles := by
  intro sc
  refine Goes.bind (hFirst.node sc) fun first hf => Goes.bind (hLast.node sc) fun last hl => ?_
  refine goes_pure (outcome_settled (fixed_send (fixed_atom s _) ?_) nofun rfl)
  exact List.forall_mem_cons.mpr ⟨hf.fixed, List.forall_mem_cons.mpr
    ⟨hl.fixed, List.forall_mem_singleton.mpr (fixed_atom s _)⟩⟩

theorem settles_regex (s : Span) (text : Symbol) : (regex s text).Settles :=
  fun _ => goes_onProgram.bind fun _ _ => goes_pure (outcome_settled (fixed_atom s _) nofun rfl)

/-- A statement that goes on to the next one. -/
structure FixedStep (sc : Scope) (n : Node) : Prop where
  isStatement : n.isStatement = true
  fixed : n.Fixed sc
  ends : n.ends = false

theorem fixedStep_assign {s : Span} {t : Symbol} {value : Node} (h : value.Fixed sc) :
    FixedStep sc (.assign s (.temp s t) value) :=
  ⟨rfl, fixed_assign (fixed_atom s _) rfl nofun h, rfl⟩

theorem fixedStep_send {s : Span} {receiver : Node} {name : Symbol} {args : List Node}
    (hReceiver : receiver.Fixed sc) (hArgs : ∀ n ∈ args, n.Fixed sc) :
    FixedStep sc (.send s receiver name args) := ⟨rfl, fixed_send hReceiver hArgs, rfl⟩

theorem fixedStep_temp (s : Span) (t : Symbol) : FixedStep sc (.temp s t) :=
  ⟨rfl, fixed_atom s _, rfl⟩

theorem settled_steps (s : Span) {ns : List Node} (h : ∀ n ∈ ns, FixedStep sc n)
    (hMany : 2 ≤ ns.length) : (⟨.seq s ns, false⟩ : Outcome).Settled sc := by
  have hEnds : listEnds ns = false := by
    rw [listEnds_eq, List.any_eq_false]
    intro n hn
    rw [(h n hn).ends]
    exact Bool.false_ne_true
  have hStatements : FixedStatements sc ns := by
    refine ⟨fun n hn => ⟨(h n hn).isStatement, (h n hn).fixed⟩, ?_⟩
    have hAll := untilEnd_append hEnds []
    rwa [List.append_nil, untilEnd, List.append_nil] at hAll
  exact ⟨⟨fixed_seq hStatements hMany, hStatements⟩, hEnds.symm⟩

theorem settles_array (s : Span) (h : ∀ p ∈ ps, p.Settles) (type : Option ConstPath) :
    (array s ps type).Settles := by
  intro sc
  refine (goes_nodes fun p hp => (h p hp).node sc).bind fun ns hns => ?_
  have hElements := forall_of_forall₂ hns
  refine goes_onProgram.bind fun id _ => ?_
  have hType : (Node.atom s (.generic id)).Fixed sc := fixed_atom s _
  dsimp only
  split
  · refine goes_pure (outcome_settled (fixed_send hType ?_) nofun rfl)
    exact List.forall_mem_singleton.mpr (fixed_atom s _)
  · refine goes_freshTemp.bind fun t _ => goes_pure (settled_steps s ?_ ?_)
    · unfold arrayStatements
      have hTemp : ∀ s', (Node.temp s' t).Fixed sc := fun s' => fixed_atom s' _
      have hInt : ∀ s' (k : Int), ∀ n ∈ [Node.int s' k], n.Fixed sc :=
        fun s' k => List.forall_mem_singleton.mpr (fixed_atom s' _)
      refine List.forall_mem_append.mpr ⟨List.forall_mem_append.mpr ⟨?_, fun n hn => ?_⟩,
        List.forall_mem_singleton.mpr (fixedStep_temp s t)⟩
      · exact List.forall_mem_cons.mpr ⟨fixedStep_assign (fixed_send hType (hInt s _)),
          List.forall_mem_singleton.mpr (fixedStep_send (hTemp s) (hInt s _))⟩
      · obtain ⟨i, hi, rfl⟩ := List.mem_mapIdx.mp hn
        refine fixedStep_send (fixed_send (hTemp _) nofun) (List.forall_mem_cons.mpr
          ⟨fixed_atom _ _, List.forall_mem_singleton.mpr ?_⟩)
        exact (hElements _ (List.getElem_mem hi)).fixed
    · simp only [arrayStatements, List.length_append, List.length_cons]
      omega

theorem goes_entryNodes {entries : List (HashEntry Pending)}
    (h : ∀ e ∈ entries, e.key.Settles ∧ e.value.Settles) (sc : Scope) :
    (entryNodes entries).Goes .first sc sc fun es =>
      ∀ e ∈ es, e.key.Fixed sc ∧ e.value.Fixed sc := by
  induction entries with
  | nil => exact goes_pure nofun
  | cons e entries ih =>
    obtain ⟨hKey, hValue⟩ := h e (.head _)
    refine Goes.bind (hKey.node sc) fun k hk => Goes.bind (hValue.node sc) fun v hv => ?_
    refine (ih fun e' he' => h e' (.tail _ he')).bind fun es hes => goes_pure ?_
    exact List.forall_mem_cons.mpr ⟨⟨hk.fixed, hv.fixed⟩, hes⟩

theorem settles_hash (s : Span) {entries : List (HashEntry Pending)}
    (h : ∀ e ∈ entries, e.key.Settles ∧ e.value.Settles) (types : Option HashTypes) :
    (hash s entries types).Settles := by
  intro sc
  refine (goes_entryNodes h sc).bind fun es hes => goes_onProgram.bind fun id _ => ?_
  have hEmpty : (Node.send s (.atom s (.generic id)) .newName []).Fixed sc :=
    fixed_send (fixed_atom s _) nofun
  dsimp only
  split
  · exact goes_pure (outcome_settled hEmpty nofun rfl)
  · refine goes_freshTemp.bind fun t _ => goes_pure (settled_steps s ?_ ?_)
    · unfold hashStatements
      refine List.forall_mem_append.mpr ⟨List.forall_mem_append.mpr
        ⟨List.forall_mem_singleton.mpr (fixedStep_assign hEmpty), fun n hn => ?_⟩,
        List.forall_mem_singleton.mpr (fixedStep_temp s t)⟩
      obtain ⟨e, he, rfl⟩ := List.mem_map.mp hn
      exact fixedStep_send (fixed_atom _ _) (List.forall_mem_cons.mpr
        ⟨(hes e he).1, List.forall_mem_singleton.mpr (hes e he).2⟩)
    · simp only [hashStatements, List.length_append, List.length_cons, List.length_nil]
      omega

end Pending

end CoreTree
