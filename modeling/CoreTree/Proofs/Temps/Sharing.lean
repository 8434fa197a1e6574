import CoreTree.Proofs.Temps.Growing

/-! # Normalization shares out temporaries

One call of the normalizer shares out what it allocates, if its calls do. A tree that is saved is
normalized before its temporary is known to anything else; what reads the temporary comes after.
-/
namespace CoreTree
set_option autoImplicit false

open Node Program

variable {known : Symbol → Prop} {base p q : Program} {held ms : List Node} {n : Node}
  {t : Symbol} {answer : RequireHandler} {α β : Type}

/-- The temporaries in a source tree are its own or known, and the known ones are only read. -/
abbrev Node.SourceTidy (known : Symbol → Prop) (p : Program) (n : Node) : Prop :=
  n.Tidy (fun t => known t ∨ p.Own t) p.Own

theorem Node.Tidy.later (h : n.SourceTidy known p) (hLater : p.Later q) : n.SourceTidy known q :=
  h.mono (fun _ => Or.imp_right fun hOwn => hOwn.later hLater) fun _ hOwn => hOwn.later hLater

/-- All temporaries in the tree are its own. -/
abbrev Node.AllOwn (p : Program) (n : Node) : Prop := ∀ t, n.HasTemp t → p.Own t

theorem Node.AllOwn.tidy (h : n.AllOwn p) : n.SourceTidy known p :=
  tidy_of_hasTemp h fun _ => .inr

/-- All temporaries in the tree are its own or have been allocated. -/
abbrev Node.AllMade (p q : Program) (n : Node) : Prop :=
  ∀ t, n.HasTemp t → t ∈ p.tempsTo q ∨ q.Own t

theorem Node.AllMade.later {r : Program} (h : n.AllMade p q) (hLater : p.Later q)
    (hLater' : q.Later r) : n.AllMade p r := fun t ht =>
  (h t ht).imp (fun hMem => tempsTo_append hLater hLater' ▸ List.mem_append_left _ hMem)
    fun hOwn => hOwn.later hLater'

namespace Code

/-- The normalizer shares out what it allocates for this tree. -/
def Shares (answer : RequireHandler) (n : Node) : Prop :=
  ∀ known p, (∀ t, known t → p.Old t) → n.SourceTidy known p →
    (transform n).LeadsTo answer p fun q o => p.Grown known q [o.node]

theorem leadsTo_of_code {Q : Program → Outcome → Prop} (h : n.code.LeadsTo answer p Q) :
    (transform n).LeadsTo answer p Q := by
  unfold LeadsTo at h
  rw [n.denote_code answer] at h
  exact h

theorem LeadsTo.apart {Q : Program → Node → Prop} (h : (node n).LeadsTo answer p Q)
    (params : List Symbol) : (apart params n).LeadsTo answer p Q := by
  intro hFiles scope
  have hNode := h hFiles (Scope.ofParams params)
  show (Norm.inScope _ ((Code.node n).denote answer)).Ensures _ _ _
  unfold Norm.Ensures at hNode ⊢
  rw [Norm.run_inScope]
  cases hRun : ((Code.node n).denote answer).run ⟨p, Scope.ofParams params⟩ with
  | ok m st =>
    rw [hRun] at hNode
    exact hNode
  | error e st => trivial

section

variable (hKnown : ∀ t, known t → base.Old t) (hHeld : base.Grown known p held)
include hKnown hHeld

theorem Shares.transform (h : Shares answer n) (hn : n.SourceTidy known base) :
    (transform n).LeadsTo answer p fun q o => base.Grown known q (o.node :: held) :=
  (h known p (fun t ht => (hKnown t ht).later hHeld.later) (hn.later hHeld.later)).weaken
    fun _ _ _ hGrown => hHeld.append hGrown hKnown

theorem Shares.node (h : Shares answer n) (hn : n.SourceTidy known base) :
    (node n).LeadsTo answer p fun q m => base.Grown known q (m :: held) :=
  (h.transform hKnown hHeld hn).bind fun _ _ _ ho => leadsTo_pure ho

theorem leadsTo_optionNode {n : Option Node} (h : ∀ m, n = some m → Shares answer m)
    (hn : ∀ m, n = some m → m.SourceTidy known base) :
    (optionNode n).LeadsTo answer p fun q m => base.Grown known q (m.toList ++ held) := by
  cases n with
  | none => exact leadsTo_pure hHeld
  | some n => exact ((h n rfl).node hKnown hHeld (hn n rfl)).bind fun _ _ _ hm => leadsTo_pure hm

theorem leadsTo_nodes {ns : List Node} (h : ∀ n ∈ ns, Shares answer n)
    (hns : ∀ n ∈ ns, n.SourceTidy known base) :
    (nodes ns).LeadsTo answer p fun q ms => base.Grown known q (ms ++ held) := by
  induction ns generalizing p held with
  | nil => exact leadsTo_pure hHeld
  | cons n ns ih =>
    obtain ⟨hHead, hRest⟩ := List.forall_mem_cons.mp h
    obtain ⟨hn, hns⟩ := List.forall_mem_cons.mp hns
    refine (hHead.node hKnown hHeld hn).bind fun m q _ hm => ?_
    refine (ih hm hRest hns).bind fun ms r _ hms => leadsTo_pure (hms.perm ?_)
    exact List.perm_middle

theorem leadsTo_entryNodes {es : List (HashEntry Node)}
    (h : ∀ e ∈ es, Shares answer e.key ∧ Shares answer e.value)
    (hes : ∀ e ∈ es, e.key.SourceTidy known base ∧ e.value.SourceTidy known base) :
    (entryNodes es).LeadsTo answer p
      fun q es => base.Grown known q (es.flatMap (fun e => [e.key, e.value]) ++ held) := by
  induction es generalizing p held with
  | nil => exact leadsTo_pure hHeld
  | cons e es ih =>
    obtain ⟨⟨hKey, hValue⟩, hRest⟩ := List.forall_mem_cons.mp h
    obtain ⟨⟨hk, hv⟩, hes⟩ := List.forall_mem_cons.mp hes
    refine (hKey.node hKnown hHeld hk).bind fun key q _ hk' => ?_
    refine (hValue.node hKnown hk' hv).bind fun value r _ hv' => ?_
    refine (ih hv' hRest hes).bind fun es' r' _ hes' => leadsTo_pure (hes'.perm ?_)
    refine List.perm_middle.trans ((List.perm_middle.cons _).trans ?_)
    exact .swap key value _

/-! ## Targets and definitions -/

theorem Shares.closed (h : Shares answer n) (hn : n.AllOwn base) :
    (Code.node n).LeadsTo answer p
      fun q m => base.Grown known q (m :: held) ∧ m.AllMade base q := by
  have hOwn : n.AllOwn p := fun t ht => (hn t ht).later hHeld.later
  refine (h (fun _ => False) p nofun hOwn.tidy).bind fun o q hLater ho => leadsTo_pure ?_
  refine ⟨hHeld.append (ho.mono nofun) hKnown, fun t ht => ?_⟩
  obtain hMade | hNone | hIs := ho.allotted.hasTemp (.head _) ht
  · exact .inl (tempsTo_append hHeld.later hLater ▸ List.mem_append_right _ hMade)
  · exact hNone.elim
  · exact .inr hIs

theorem leadsTo_optionApart {n : Option Node} (params : List Symbol)
    (h : ∀ m, n = some m → Shares answer m) (hn : ∀ m, n = some m → m.AllOwn base) :
    (optionApart params n).LeadsTo answer p fun q m =>
      base.Grown known q (m.toList ++ held) ∧ ∀ k, m = some k → k.AllMade base q := by
  cases n with
  | none => exact leadsTo_pure ⟨hHeld, nofun⟩
  | some n =>
    refine (((h n rfl).closed hKnown hHeld (hn n rfl)).apart params).bind fun m q _ hm =>
      leadsTo_pure ?_
    refine ⟨hm.1, ?_⟩
    rintro _ ⟨⟩
    exact hm.2

theorem Shares.target (h : Shares answer n) (hn : n.AllOwn base) :
    (Code.target n).LeadsTo answer p
      fun q m => base.Grown known q (m :: held) ∧ m.AllMade base q := by
  cases n with
  | var s v =>
    refine (leadsTo_write v).bind ?_
    rintro v' _ - rfl
    have hNone : ∀ t, ¬ (Node.var s v').HasTemp t := fun t => not_hasTemp_of_parts rfl nofun
    exact leadsTo_pure ⟨hHeld.new hNone, fun t ht => (hNone t ht).elim⟩
  | _ => exact h.closed hKnown hHeld hn

theorem leadsTo_targets {ns : List Node} (h : ∀ n ∈ ns, Shares answer n)
    (hns : ∀ n ∈ ns, n.AllOwn base) : (targets ns).LeadsTo answer p fun q ms =>
      base.Grown known q (ms ++ held) ∧ ∀ m ∈ ms, m.AllMade base q := by
  induction ns generalizing p held with
  | nil => exact leadsTo_pure ⟨hHeld, nofun⟩
  | cons n ns ih =>
    obtain ⟨hHead, hRest⟩ := List.forall_mem_cons.mp h
    obtain ⟨hn, hns⟩ := List.forall_mem_cons.mp hns
    refine (hHead.target hKnown hHeld hn).bind fun m q _ hm => ?_
    refine (ih hm.1 hRest hns).bind fun ms r hLater hms => leadsTo_pure ⟨?_, ?_⟩
    · exact hms.1.perm List.perm_middle
    · exact List.forall_mem_cons.mpr ⟨hm.2.later hm.1.later hLater, hms.2⟩

/-! ## Statements and branches -/

theorem leadsTo_statements {ns : List Node} (s : Span) (h : ∀ n ∈ ns, Shares answer n)
    (hns : ∀ n ∈ ns, n.SourceTidy known base) :
    (statements ns).LeadsTo answer p fun q r => base.Grown known q (.seq s r.1 :: held) := by
  induction ns generalizing p held with
  | nil => exact leadsTo_pure (Grown.of_parts hHeld rfl rfl)
  | cons n ns ih =>
    obtain ⟨hHead, hRest⟩ := List.forall_mem_cons.mp h
    obtain ⟨hn, hns⟩ := List.forall_mem_cons.mp hns
    refine (hHead.transform hKnown hHeld hn).bind fun o q _ ho => ?_
    split
    · exact leadsTo_pure (Grown.replace ho ((sequenceOf_statements o.node).seq s))
    · refine (ih ho hRest hns).bind fun r q' _ hr => leadsTo_pure ?_
      exact Grown.replace (hr.perm (.swap _ _ _)) ((builtOf_self o.node).join.seq s)

theorem leadsTo_runBranch {start : Scope} {n : Option Node} (h : ∀ m, n = some m → Shares answer m)
    (hn : ∀ m, n = some m → m.SourceTidy known base) :
    (runBranch start n).LeadsTo answer p
      fun q e => base.Grown known q ((e.bind (·.node)).toList ++ held) := by
  cases n with
  | none => exact leadsTo_pure hHeld
  | some n =>
    refine (leadsTo_setScope start).bind ?_
    rintro - _ - rfl
    refine ((h n rfl).transform hKnown hHeld (hn n rfl)).bind fun o q _ ho => ?_
    refine leadsTo_getScope.bind ?_
    rintro scope _ - rfl
    exact leadsTo_pure ⟨ho.later, ho.allotted.toOption⟩

end

section

variable (hKnown : ∀ t, known t → base.Old t)

/-! ## Bridges -/

theorem not_hasTemp_bridge (s : Span) (bridges : List Bridge) :
    ∀ n ∈ bridges.map (·.node s), ∀ t, ¬ n.HasTemp t := by
  intro n hn t
  obtain ⟨b, _, rfl⟩ := List.mem_map.mp hn
  refine not_hasTemp_of_parts rfl (List.forall_mem_cons.mpr ⟨not_hasTemp_of_parts rfl nofun,
    List.forall_mem_singleton.mpr ?_⟩)
  cases b.source <;> exact not_hasTemp_of_parts rfl nofun

theorem builtOf_bridge {added : Symbol → Prop} (s : Span) (bridges : List Bridge) :
    ∀ n ∈ bridges.map (·.node s), BuiltOf added [] n := fun n hn =>
  builtOf_new fun t ht => (not_hasTemp_bridge s bridges n hn t ht).elim

theorem grown_closeLoop (s : Span) {e : Option BranchEnd} (bridges : List Bridge)
    (h : base.Grown known p ((e.bind (·.node)).toList ++ held)) :
    base.Grown known p ((BranchEnd.closeLoop s e bridges).toList ++ held) := by
  have hAppend : ∀ body : Option Node, base.Grown known p (body.toList ++ held) →
      base.Grown known p ((appendLoopBridges s body bridges).toList ++ held) := by
    intro body hBody
    unfold appendLoopBridges
    split
    · exact hBody
    · exact hBody.replace
        (((sequenceOf_branchStatements body).append (builtOf_bridge s bridges)).ofStatements s)
  cases e with
  | none => exact hAppend none h
  | some b =>
    unfold BranchEnd.closeLoop
    simp only
    split
    · exact h
    · exact hAppend b.node h

include hKnown in
theorem ensures_appendBridges (s : Span) {branch : Option Node} (bridges : List Bridge)
    {scope : Scope} (h : base.Grown known p (branch.toList ++ held)) :
    (appendBridges s branch bridges).Ensures ⟨p, scope⟩ True fun m st =>
      p.Later st.program ∧ base.Grown known st.program (m.toList ++ held) := by
  have hStmts : ∀ added, SequenceOf added branch.toList (branchStatements branch) := fun _ =>
    sequenceOf_branchStatements branch
  unfold appendBridges
  split
  · exact Norm.ensures_pure ⟨.refl p, h⟩
  · simp only
    split
    · rename_i hLast
      rw [List.getLast?_eq_none_iff.mp hLast] at hStmts
      refine Norm.ensures_pure ⟨.refl p, h.replace (((hStmts _).append ?_).seq s)⟩
      exact List.forall_mem_append.mpr ⟨builtOf_bridge s bridges, List.forall_mem_singleton.mpr
        (builtOf_atom s (by simp))⟩
    · rename_i last hLast
      have hSplit : branchStatements branch = (branchStatements branch).dropLast ++ [last] :=
        (List.dropLast_append_getLast? last hLast).symm
      split
      · refine Norm.ensures_pure ⟨.refl p, h.replace (SequenceOf.seq ?_ s)⟩
        exact (hSplit ▸ hStmts _).insert (builtOf_bridge s bridges)
      · refine Norm.ensures_freshTemp_bind (Norm.ensures_pure ⟨later_freshTemp p, ?_⟩)
        rw [List.append_assoc]
        generalize hFresh : p.freshTemp.1 = t
        have hSaved : SequenceOf (· = t) branch.toList
            ((branchStatements branch).dropLast ++ [.assign last.span (.temp last.span t) last]) :=
          (hSplit ▸ hStmts _).saveLast rfl
        subst hFresh
        refine h.save hKnown ((hSaved.append (List.forall_mem_append.mpr
          ⟨builtOf_bridge s bridges, ?_⟩)).seq s) fun hNone => SavesIn.seq ?_ s
        · exact List.forall_mem_singleton.mpr (builtOf_temp last.span rfl)
        · have hStmtsNone := not_hasTemp_branchStatements hNone
          rw [List.append_assoc, List.singleton_append]
          refine .split (fun m hm => hStmtsNone m (List.dropLast_subset _ hm))
            (hStmtsNone last (List.mem_of_getLast? hLast)) (List.forall_mem_append.mpr ⟨?_, ?_⟩)
          · exact fun m hm => onlyReads_of_not_hasTemp (not_hasTemp_bridge s bridges m hm _)
          · exact List.forall_mem_singleton.mpr (onlyReads_atom _ _)

include hKnown in
theorem leadsTo_close (s : Span) {e : Option BranchEnd} (bridges : List Bridge)
    (h : base.Grown known p ((e.bind (·.node)).toList ++ held)) :
    (close s e bridges).LeadsTo answer p fun q m => base.Grown known q (m.toList ++ held) := by
  intro _ scope
  show (BranchEnd.close s e bridges).Ensures _ _ _
  unfold BranchEnd.close
  split
  · exact ensures_appendBridges hKnown s bridges h
  · split
    · exact Norm.ensures_pure ⟨.refl p, h⟩
    · exact ensures_appendBridges hKnown s bridges h

end

end Code

end CoreTree
