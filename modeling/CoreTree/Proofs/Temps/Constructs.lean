import CoreTree.Proofs.Temps.Sharing

/-! # Constructs share out temporaries

What each construct allocates is shared out among its parts, or it is saved in the construct itself.
-/
namespace CoreTree
set_option autoImplicit false

open Node Program

variable {known : Symbol → Prop} {base p q : Program} {held ms : List Node} {n : Node}
  {t : Symbol} {answer : RequireHandler}

namespace Code

theorem leadsTo_atom (s : Span) (a : Atom) : (transform (.atom s a)).LeadsTo answer p
    fun q o => q = p ∧ o = ⟨.atom s a, false⟩ := leadsTo_of_code (leadsTo_pure ⟨rfl, rfl⟩)

theorem leadsTo_nodeAtom (s : Span) (a : Atom) : (node (.atom s a)).LeadsTo answer p
    fun q m => q = p ∧ m = .atom s a := by
  refine (leadsTo_atom s a).bind ?_
  rintro _ _ - ⟨rfl, rfl⟩
  exact leadsTo_pure ⟨rfl, rfl⟩

theorem shares_atom (s : Span) (a : Atom) : Shares answer (.atom s a) := by
  refine fun known p _ hTidy => (leadsTo_atom s a).weaken ?_
  rintro _ _ - ⟨rfl, rfl⟩
  refine ⟨.refl _, ?_⟩
  rw [tempsTo_of_same rfl]
  exact ⟨List.forall_mem_singleton.mpr (hTidy.mono (fun _ => .inr) fun _ => .inr), nofun⟩

section

variable (hKnown : ∀ t, known t → base.Old t)
include hKnown

/-! ## Conditionals, loops and blocks -/

/-- What is left to do for a conditional when its test has been normalized. -/
def branches (s : Span) (onTrue onFalse : Option Node) (test : Node) : Code Outcome := do
  let before ← getScope
  let thenEnd ← runBranch before onTrue
  let elseStart := thenEnd.elim before fun e => Scope.elseStart before e.scope
  let elseEnd ← runBranch elseStart onFalse
  let join := Scope.joinBranches before (thenEnd.map (·.scope)) elseStart
    (elseEnd.map (·.scope))
  noteBridges (join.thenBridges ++ join.elseBridges)
  setScope join.scope
  let thenNode ← close s thenEnd join.thenBridges
  let elseNode ← close s elseEnd join.elseBridges
  let ends := thenEnd.any (·.ends) && elseEnd.any (·.ends)
  return ⟨.cond s .whenTrue test thenNode elseNode, ends⟩

theorem leadsTo_branches {s : Span} {onTrue onFalse : Option Node} (test : Node)
    (hHeld : base.Grown known p held)
    (hTrue : ∀ m, onTrue = some m → Shares answer m)
    (hFalse : ∀ m, onFalse = some m → Shares answer m)
    (hTrueIn : ∀ m, onTrue = some m → m.SourceTidy known base)
    (hFalseIn : ∀ m, onFalse = some m → m.SourceTidy known base) :
    (branches s onTrue onFalse test).LeadsTo answer p fun q o => ∃ body other ends,
      o = ⟨.cond s .whenTrue test body other, ends⟩ ∧
      base.Grown known q (body.toList ++ other.toList ++ held) := by
  refine leadsTo_getScope.bind ?_
  rintro before _ - rfl
  refine (leadsTo_runBranch hKnown hHeld hTrue hTrueIn).bind fun thenEnd p₁ _ hThen => ?_
  refine (leadsTo_runBranch hKnown hThen hFalse hFalseIn).bind fun elseEnd p₂ _ hElse => ?_
  have hBoth : base.Grown known p₂ ((thenEnd.bind (·.node)).toList ++
      ((elseEnd.bind (·.node)).toList ++ held)) := by
    rw [← List.append_assoc] at hElse ⊢
    exact hElse.perm (List.perm_append_comm.append_right held)
  refine (leadsTo_noteBridges _).bind ?_
  rintro - _ - rfl
  refine (leadsTo_setScope _).bind ?_
  rintro - _ - rfl
  refine (leadsTo_close hKnown s _ hBoth).bind fun thenNode p₃ _ hThen' => ?_
  have hOther : base.Grown known p₃ ((elseEnd.bind (·.node)).toList ++
      (thenNode.toList ++ held)) := by
    rw [← List.append_assoc] at hThen' ⊢
    exact hThen'.perm (List.perm_append_comm.append_right held)
  refine (leadsTo_close hKnown s _ hOther).bind fun elseNode p₄ _ hElse' => leadsTo_pure ?_
  refine ⟨thenNode, elseNode, _, rfl, ?_⟩
  rw [← List.append_assoc] at hElse'
  exact hElse'.perm (List.perm_append_comm.append_right held)

theorem leadsTo_ifElse {s : Span} {test : Node} {onTrue onFalse : Option Node}
    (hHeld : base.Grown known p held) (hTest : Shares answer test)
    (hTrue : ∀ m, onTrue = some m → Shares answer m)
    (hFalse : ∀ m, onFalse = some m → Shares answer m) (hTestIn : test.SourceTidy known base)
    (hTrueIn : ∀ m, onTrue = some m → m.SourceTidy known base)
    (hFalseIn : ∀ m, onFalse = some m → m.SourceTidy known base) :
    (ifElse s test onTrue onFalse).LeadsTo answer p
      fun q o => base.Grown known q (o.node :: held) := by
  show (node test >>= branches s onTrue onFalse).LeadsTo answer p _
  refine (hTest.node hKnown hHeld hTestIn).bind fun test' p₁ _ hTest' => ?_
  refine (leadsTo_branches hKnown test' hTest' hTrue hFalse hTrueIn hFalseIn).weaken ?_
  rintro q _ - ⟨body, other, ends, rfl, hParts⟩
  exact Grown.of_parts (hParts.perm List.perm_middle) rfl rfl

theorem leadsTo_loop {s : Span} {test : Node} {body : Option Node} (hHeld : base.Grown known p held)
    (hTest : Shares answer test) (hBody : ∀ m, body = some m → Shares answer m)
    (hTestIn : test.SourceTidy known base)
    (hBodyIn : ∀ m, body = some m → m.SourceTidy known base) :
    (loop s test body).LeadsTo answer p fun q o => base.Grown known q (o.node :: held) := by
  refine leadsTo_getScope.bind ?_
  rintro before _ - rfl
  refine (hTest.node hKnown hHeld hTestIn).bind fun test' p₁ _ hTest' => ?_
  refine leadsTo_getScope.bind ?_
  rintro entry _ - rfl
  refine (leadsTo_runBranch hKnown hTest' hBody hBodyIn).bind fun bodyEnd p₂ _ hEnd => ?_
  refine leadsTo_getScope.bind ?_
  rintro now _ - rfl
  refine (leadsTo_noteBridges _).bind ?_
  rintro - _ - rfl
  refine (leadsTo_setScope _).bind ?_
  rintro - _ - rfl
  have hParts := grown_closeLoop s
    (Scope.loopBridges entry now ++ (Scope.loopBridges before now).filter
      (!(Scope.loopBridges entry now).contains ·)) hEnd
  exact leadsTo_pure (Grown.of_parts (hParts.perm List.perm_middle) rfl rfl)

theorem leadsTo_optionBlock {s : Span} {b : Option (Block Node)} (hHeld : base.Grown known p held)
    (h : ∀ m, b.bind (·.body) = some m → Shares answer m)
    (hb : ∀ m, b.bind (·.body) = some m → m.SourceTidy known base) :
    (optionBlock s b).LeadsTo answer p
      fun q b => base.Grown known q ((b.bind (·.body)).toList ++ held) := by
  cases b with
  | none => exact leadsTo_pure hHeld
  | some b =>
    have hBlock : (runBlock s b).LeadsTo answer p
        fun q b => base.Grown known q (b.body.toList ++ held) := by
      refine leadsTo_getScope.bind ?_
      rintro before _ - rfl
      refine (leadsTo_noteParams _).bind ?_
      rintro - _ - rfl
      refine (leadsTo_setScope _).bind ?_
      rintro - _ - rfl
      refine (leadsTo_runBranch hKnown hHeld h hb).bind fun bodyEnd p₁ _ hEnd => ?_
      refine leadsTo_getScope.bind ?_
      rintro now _ - rfl
      refine (leadsTo_noteBridges _).bind ?_
      rintro - _ - rfl
      refine (leadsTo_setScope _).bind ?_
      rintro - _ - rfl
      exact (leadsTo_close hKnown s _ hEnd).bind fun body p₂ _ hBody => leadsTo_pure hBody
    exact hBlock.bind fun b' q _ hb' => leadsTo_pure hb'

/-! ## What is saved -/

theorem Shares.save (h : Shares answer n) (hHeld : base.Grown known p held)
    (hn : n.SourceTidy known base) : (Code.transform (n.save t)).LeadsTo answer p fun q o =>
      ∃ v, o = ⟨.assign n.span (.temp n.span t) v, false⟩ ∧ base.Grown known q (v :: held) := by
  refine leadsTo_of_code ?_
  show (Code.node n >>= fun v => Code.node (.temp n.span t) >>= fun target =>
    Pure.pure ⟨.assign n.span target v, false⟩ : Code Outcome).LeadsTo answer p _
  refine (h.node hKnown hHeld hn).bind fun v q _ hv => ?_
  refine (leadsTo_nodeAtom n.span (.temp t)).bind ?_
  rintro _ _ - ⟨rfl, rfl⟩
  exact leadsTo_pure ⟨v, rfl, hv⟩

end

section

variable (hKnown : ∀ t, known t → p.Old t)
include hKnown

theorem old_of_fresh : ∀ x, x = p.freshTemp.1 ∨ known x → p.freshTemp.2.Old x := by
  rintro x (rfl | hx)
  · exact old_of_mem_tempsTo (later_freshTemp p) (mem_tempsTo_freshTemp p)
  · exact (hKnown x hx).later (later_freshTemp p)

/-- A tree that is normalized before it is saved does not mention the fresh temporary. -/
theorem not_hasTemp_of_fresh {v : Node} (h : p.freshTemp.2.Grown known q [v]) :
    ¬ v.HasTemp p.freshTemp.1 := by
  intro hTemp
  have hFresh := mem_tempsTo_freshTemp p
  obtain hMade | hIs | hOwn := h.allotted.hasTemp (.head _) hTemp
  · exact not_old_of_mem_tempsTo h.later hMade
      (old_of_mem_tempsTo (later_freshTemp p) hFresh)
  · exact not_old_of_mem_tempsTo (later_freshTemp p) hFresh (hKnown _ hIs)
  · refine not_own_of_mem_tempsTo ((later_freshTemp p).trans h.later) ?_ hOwn
    rw [← tempsTo_append (later_freshTemp p) h.later]
    exact List.mem_append_left _ hFresh

omit hKnown in
theorem grown_of_fresh {k : Node}
    (h : p.freshTemp.2.Grown (fun x => x = p.freshTemp.1 ∨ known x) q ms)
    (hBuilt : BuiltOf (· = p.freshTemp.1) ms k)
    (hSaves : (∀ m ∈ ms, m.OnlyReads p.freshTemp.1) → k.Saves p.freshTemp.1) :
    p.Grown known q [k] := by
  have hLater := later_freshTemp p
  have hFresh := mem_tempsTo_freshTemp p
  have hNew : p.freshTemp.1 ∉ p.freshTemp.2.tempsTo q := fun hMem =>
    not_old_of_mem_tempsTo h.later hMem (old_of_mem_tempsTo hLater hFresh)
  have hOwn : ¬ q.Own p.freshTemp.1 := by
    refine not_own_of_mem_tempsTo (hLater.trans h.later) ?_
    rw [← tempsTo_append hLater h.later]
    exact List.mem_append_left _ hFresh
  refine ⟨hLater.trans h.later, ?_⟩
  have hAll := h.allotted
  rw [← List.append_nil ms] at hAll
  refine hAll.save hBuilt (hSaves fun m hm => h.allotted.onlyReads hm hNew hOwn) hNew nofun
    (fun _ => id) fun x => ?_
  rw [← tempsTo_append hLater h.later, tempsTo_freshTemp, List.mem_append, List.mem_singleton]

theorem leadsTo_savedCond {s : Span} {left : Node} {onTrue onFalse : Option Node}
    (hLeft : Shares answer left) (hTrue : ∀ m, onTrue = some m → Shares answer m)
    (hFalse : ∀ m, onFalse = some m → Shares answer m) (hLeftIn : left.SourceTidy known p)
    (hTrueIn : ∀ m, onTrue = some m →
      m.SourceTidy (fun x => x = p.freshTemp.1 ∨ known x) p.freshTemp.2)
    (hFalseIn : ∀ m, onFalse = some m →
      m.SourceTidy (fun x => x = p.freshTemp.1 ∨ known x) p.freshTemp.2) :
    (transform (.cond s .whenTrue (left.save p.freshTemp.1) onTrue onFalse)).LeadsTo answer
      p.freshTemp.2 fun q o => p.Grown known q [o.node] := by
  have hOld : ∀ x, known x → p.freshTemp.2.Old x := fun x hx =>
    (hKnown x hx).later (later_freshTemp p)
  refine leadsTo_of_code ?_
  show (node (left.save p.freshTemp.1) >>= branches s onTrue onFalse).LeadsTo answer _ _
  refine LeadsTo.bind (Q := fun q m => ∃ v, m = Node.assign left.span
      (.temp left.span p.freshTemp.1) v ∧ p.freshTemp.2.Grown known q [v]) ?_ ?_
  · refine (hLeft.save hOld (grown_nil _) (hLeftIn.later (later_freshTemp p))).bind ?_
    rintro _ q - ⟨v, rfl, hv⟩
    exact leadsTo_pure ⟨v, rfl, hv⟩
  · rintro _ q - ⟨v, rfl, hv⟩
    refine (leadsTo_branches (old_of_fresh hKnown) _ (hv.mono fun _ => .inr) hTrue hFalse hTrueIn
      hFalseIn).weaken ?_
    rintro r _ - ⟨body, other, ends, rfl, hParts⟩
    refine grown_of_fresh (hParts.perm List.perm_append_comm) ?_ fun hReads => ?_
    · refine AllBuiltOf.builtOf ?_ rfl rfl
      exact .cons (builtOf_save (builtOf_self v) rfl) (.refl _)
    · exact .cond (not_hasTemp_of_fresh hKnown hv) fun m hm => hReads m (.tail _ hm)

theorem leadsTo_savedSeq {s : Span} {subject chain : Node} (hSubject : Shares answer subject)
    (hChain : Shares answer chain) (hSubjectIn : subject.SourceTidy known p)
    (hChainIn : chain.SourceTidy (fun x => x = p.freshTemp.1 ∨ known x) p.freshTemp.2) :
    (transform (.seq s [subject.save p.freshTemp.1, chain])).LeadsTo answer p.freshTemp.2
      fun q o => p.Grown known q [o.node] := by
  have hOld : ∀ x, known x → p.freshTemp.2.Old x := fun x hx =>
    (hKnown x hx).later (later_freshTemp p)
  refine leadsTo_of_code ?_
  show ((statements [subject.save p.freshTemp.1, chain]) >>= fun r =>
    Pure.pure ⟨.ofStatements s r.1, r.2⟩ : Code Outcome).LeadsTo answer _ _
  refine LeadsTo.bind (Q := fun q r => p.Grown known q [.ofStatements s r.1]) ?_
    fun r q _ hr => leadsTo_pure hr
  refine (hSubject.save hOld (grown_nil _) (hSubjectIn.later (later_freshTemp p))).bind ?_
  rintro _ q - ⟨v, rfl, hv⟩
  refine (leadsTo_statements (old_of_fresh hKnown) (hv.mono fun _ => .inr) s
    (List.forall_mem_singleton.mpr hChain) (List.forall_mem_singleton.mpr hChainIn)).bind
    fun r q' _ hr => leadsTo_pure ?_
  have hSave : BuiltOf (· = p.freshTemp.1) [v]
      (.assign subject.span (.temp subject.span p.freshTemp.1) v) :=
    builtOf_save (builtOf_self v) rfl
  refine grown_of_fresh (hr.perm (.swap _ _ _)) (hSave.join.ofStatements s) fun hReads =>
    SavesIn.ofStatements ?_ s
  · have hRest : ∀ m ∈ r.1, m.OnlyReads p.freshTemp.1 := fun m hm =>
      (hReads _ (.tail _ (.head _))).of_has (.part .root hm)
    rw [← List.nil_append (_ ++ _)]
    exact .split nofun (not_hasTemp_of_fresh hKnown hv) hRest

end

end Code

end CoreTree
