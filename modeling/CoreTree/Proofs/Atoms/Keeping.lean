import CoreTree.Proofs.Atoms.Law
import CoreTree.Proofs.Runs.Steps

/-! # Normalization keeps the law

If the atoms of a tree are as a law asks, so are those of what it is normalized to. What sugar
stands for holds new atoms, which are admitted as soon as they are allocated, so that only the core
vocabulary and the literals are to be looked at one by one.
-/
namespace CoreTree
set_option autoImplicit false

variable {L : AtomLaw} {p q : Program} {answer : RequireHandler} {α β : Type}

namespace Code

def Keeps (L : AtomLaw) (answer : RequireHandler) (p : Program) (c : Code α)
    (Q : Program → α → Prop) : Prop :=
  (c.denote answer).Keeps L p Q

variable {c : Code α} {Q : Program → α → Prop} {R : Program → β → Prop}

theorem keeps_pure {a : α} (h : ∀ q, L.later p q → Q q a) :
    (Pure.pure a : Code α).Keeps L answer p Q := Norm.keeps_pure h

theorem Keeps.bind {f : α → Code β} (h : c.Keeps L answer p Q)
    (hNext : ∀ a q, L.later p q → Q q a → (f a).Keeps L answer q R) :
    (c >>= f).Keeps L answer p R := Norm.Keeps.bind h hNext

/-! ## Steps that call nothing -/

theorem keeps_getScope : getScope.Keeps L answer p fun _ _ => True :=
  Norm.keeps_of_same fun _ => rfl

theorem keeps_setScope (scope : Scope) : (setScope scope).Keeps L answer p fun _ _ => True :=
  Norm.keeps_of_same fun _ => rfl

theorem keeps_noteBridges (bridges : List Bridge) :
    (noteBridges bridges).Keeps L answer p fun _ _ => True := Norm.keeps_of_same fun _ => rfl

theorem keeps_noteParams (params : List Symbol) :
    (noteParams params).Keeps L answer p fun _ _ => True := Norm.keeps_of_same fun _ => rfl

theorem keeps_write (v : Var) : (Code.act (.write v)).Keeps L answer p fun _ _ => True :=
  Norm.keeps_of_same fun _ => rfl

theorem keeps_useVar (s : Span) (v : Var) : (useVar s v).Keeps L answer p fun _ _ => True := by
  unfold useVar
  split
  · exact keeps_write v
  · refine Norm.keeps_of_same fun st => ?_
    have hRun : ((Code.act (.read s v)).denote answer).run st = _ := Act.run_read s v st
    rw [hRun]
    cases st.scope.readVersion? v.name <;> rfl

theorem keeps_freshTemp : freshTemp.Keeps L answer p fun q t => L.admits q (.temp t) :=
  Norm.keeps_freshTemp

theorem keeps_close (s : Span) {e : Option BranchEnd} (bridges : List Bridge)
    (h : Norm.AdmitsEnd L p e) :
    (close s e bridges).Keeps L answer p fun q n => ∀ m, n = some m → L.Admits q m :=
  Norm.keeps_close s bridges h

theorem keeps_genericType (base : Symbol) (args : List TypeArg)
    (h : ∀ e ∈ (GenericType.mk base args).exprs, L.Admits p e) :
    (genericType base args).Keeps L answer p fun q type => L.admits q (.generic type) :=
  Norm.keeps_onProgram fun _ hSound hLater =>
    let ⟨hSound', hLater', hType⟩ := L.genericType base args hSound fun e he =>
      (h e he).later hLater
    ⟨⟨hSound', hLater'⟩, hType⟩

/-! ## Calls -/

/-- The normalizer keeps the law, from whatever program that admits the tree. -/
def Kept (L : AtomLaw) (answer : RequireHandler) (n : Node) : Prop :=
  ∀ p, L.Admits p n → (transform n).Keeps L answer p fun q o => L.Admits q o.node

theorem Kept.node {n : Node} (h : Kept L answer n) (hn : L.Admits p n) :
    (Code.node n).Keeps L answer p L.Admits :=
  (h p hn).bind fun _ _ _ ho => keeps_pure fun _ hLater => ho.later hLater

theorem keeps_optionNode {n : Option Node} (h : ∀ m, n = some m → Kept L answer m)
    (hn : ∀ m, n = some m → L.Admits p m) :
    (optionNode n).Keeps L answer p fun q n => ∀ m, n = some m → L.Admits q m := by
  cases n with
  | none => exact keeps_pure nofun
  | some n =>
    refine ((h n rfl).node (hn n rfl)).bind fun m q _ hm => keeps_pure fun r hr => ?_
    rintro _ ⟨⟩
    exact hm.later hr

theorem keeps_nodes {ns : List Node} (h : ∀ n ∈ ns, Kept L answer n)
    (hns : ∀ n ∈ ns, L.Admits p n) :
    (nodes ns).Keeps L answer p fun q ms => ∀ m ∈ ms, L.Admits q m := by
  induction ns generalizing p with
  | nil => exact keeps_pure fun _ _ => nofun
  | cons n ns ih =>
    obtain ⟨hHead, hRest⟩ := List.forall_mem_cons.mp h
    obtain ⟨hn, hns⟩ := List.forall_mem_cons.mp hns
    refine (hHead.node hn).bind fun m q hq hm => ?_
    refine (ih hRest fun k hk => (hns k hk).later hq).bind fun ms r hr hms => ?_
    exact keeps_pure fun _ hLater => List.forall_mem_cons.mpr
      ⟨hm.later (L.trans hr hLater), fun k hk => (hms k hk).later hLater⟩

theorem Kept.target {n : Node} (h : Kept L answer n) (hn : L.Admits p n) :
    (Code.target n).Keeps L answer p L.Admits := by
  cases n with
  | var s v =>
    exact (keeps_write v).bind fun _ _ _ _ => keeps_pure fun _ _ => AtomLaw.admits_var s _
  | _ => exact h.node hn

theorem keeps_targets {ns : List Node} (h : ∀ n ∈ ns, Kept L answer n)
    (hns : ∀ n ∈ ns, L.Admits p n) :
    (targets ns).Keeps L answer p fun q ms => ∀ m ∈ ms, L.Admits q m := by
  induction ns generalizing p with
  | nil => exact keeps_pure fun _ _ => nofun
  | cons n ns ih =>
    obtain ⟨hHead, hRest⟩ := List.forall_mem_cons.mp h
    obtain ⟨hn, hns⟩ := List.forall_mem_cons.mp hns
    refine (hHead.target hn).bind fun m q hq hm => ?_
    refine (ih hRest fun k hk => (hns k hk).later hq).bind fun ms r hr hms => ?_
    exact keeps_pure fun _ hLater => List.forall_mem_cons.mpr
      ⟨hm.later (L.trans hr hLater), fun k hk => (hms k hk).later hLater⟩

theorem keeps_statements {ns : List Node} (h : ∀ n ∈ ns, Kept L answer n)
    (hns : ∀ n ∈ ns, L.Admits p n) :
    (statements ns).Keeps L answer p fun q r => ∀ m ∈ r.1, L.Admits q m := by
  induction ns generalizing p with
  | nil => exact keeps_pure fun _ _ => nofun
  | cons n ns ih =>
    obtain ⟨hHead, hRest⟩ := List.forall_mem_cons.mp h
    obtain ⟨hn, hns⟩ := List.forall_mem_cons.mp hns
    refine (hHead p hn).bind fun o q hq ho => ?_
    split
    · exact keeps_pure fun _ hLater m hm => (ho.statements m hm).later hLater
    · refine (ih hRest fun k hk => (hns k hk).later hq).bind fun r q' hq' hr => ?_
      exact keeps_pure fun _ hLater => List.forall_mem_append.mpr
        ⟨fun m hm => (ho.statements m hm).later (L.trans hq' hLater),
          fun m hm => (hr m hm).later hLater⟩

def AdmitsEntries (L : AtomLaw) (p : Program) (es : List (HashEntry Node)) : Prop :=
  ∀ e ∈ es, L.Admits p e.key ∧ L.Admits p e.value

theorem keeps_entryNodes {es : List (HashEntry Node)}
    (h : ∀ e ∈ es, Kept L answer e.key ∧ Kept L answer e.value) (hes : AdmitsEntries L p es) :
    (entryNodes es).Keeps L answer p (AdmitsEntries L) := by
  induction es generalizing p with
  | nil => exact keeps_pure fun _ _ => nofun
  | cons e es ih =>
    obtain ⟨⟨hKey, hValue⟩, hRest⟩ := List.forall_mem_cons.mp h
    obtain ⟨⟨hk, hv⟩, hes⟩ := List.forall_mem_cons.mp hes
    refine (hKey.node hk).bind fun key q hq hk' => ?_
    refine (hValue.node (hv.later hq)).bind fun value r hr hv' => ?_
    have hLater := L.trans hq hr
    refine (ih hRest fun e' he' => ⟨(hes e' he').1.later hLater,
      (hes e' he').2.later hLater⟩).bind fun es' r' hr' hes' => keeps_pure fun r'' hr'' => ?_
    exact List.forall_mem_cons.mpr ⟨⟨hk'.later (L.trans hr (L.trans hr' hr'')),
      hv'.later (L.trans hr' hr'')⟩, fun e' he' => ⟨(hes' e' he').1.later hr'',
        (hes' e' he').2.later hr''⟩⟩

theorem Kept.apart {n : Node} (h : Kept L answer n) (params : List Symbol) (hn : L.Admits p n) :
    (Code.apart params n).Keeps L answer p L.Admits :=
  Norm.Keeps.inScope (h.node hn) (Scope.ofParams params)

theorem keeps_optionApart {n : Option Node} (params : List Symbol)
    (h : ∀ m, n = some m → Kept L answer m) (hn : ∀ m, n = some m → L.Admits p m) :
    (optionApart params n).Keeps L answer p fun q n => ∀ m, n = some m → L.Admits q m := by
  cases n with
  | none => exact keeps_pure nofun
  | some n =>
    refine ((h n rfl).apart params (hn n rfl)).bind fun m q _ hm => keeps_pure fun r hr => ?_
    rintro _ ⟨⟩
    exact hm.later hr

/-- Sugar is admitted in other words, with a temporary in them if one is needed. -/
theorem keeps_unfolded {saves : Bool} {meaning : Symbol → Node}
    (h : ∀ t, Kept L answer (meaning t))
    (hMeaning : ∀ q t, L.later p q → (saves = true → L.admits q (.temp t)) →
      L.Admits q (meaning t)) :
    (unfolded saves meaning).Keeps L answer p fun q o => L.Admits q o.node := by
  unfold unfolded
  split
  · exact keeps_freshTemp.bind fun t q hq ht => h t q (hMeaning q t hq fun _ => ht)
  · rename_i hSaves
    exact h .empty p (hMeaning p .empty (L.refl p) fun hTrue => absurd hTrue hSaves)

/-! ## Branches, loops and blocks -/

theorem keeps_runBranch {start : Scope} {n : Option Node} (h : ∀ m, n = some m → Kept L answer m)
    (hn : ∀ m, n = some m → L.Admits p m) :
    (runBranch start n).Keeps L answer p (Norm.AdmitsEnd L) := by
  cases n with
  | none => exact keeps_pure fun _ _ => nofun
  | some n =>
    refine (keeps_setScope start).bind fun _ q hq _ => ?_
    refine (h n rfl q ((hn n rfl).later hq)).bind fun o r _ ho => ?_
    refine keeps_getScope.bind fun scope r' hr' _ => keeps_pure fun r'' hr'' m hm => ?_
    obtain ⟨rfl, -⟩ := (o.node.toOption_eq_some_iff m).mp hm
    exact ho.later (L.trans hr' hr'')

theorem keeps_ifElse {s : Span} {test : Node} {onTrue onFalse : Option Node}
    (hTest : Kept L answer test) (hTrue : ∀ m, onTrue = some m → Kept L answer m)
    (hFalse : ∀ m, onFalse = some m → Kept L answer m) (hTestIn : L.Admits p test)
    (hTrueIn : ∀ m, onTrue = some m → L.Admits p m)
    (hFalseIn : ∀ m, onFalse = some m → L.Admits p m) :
    (ifElse s test onTrue onFalse).Keeps L answer p fun q o => L.Admits q o.node := by
  refine (hTest.node hTestIn).bind fun test' p₁ h₁ hTest' => keeps_getScope.bind fun _ p₂ h₂ _ => ?_
  refine (keeps_runBranch hTrue fun m hm => (hTrueIn m hm).later (L.trans h₁ h₂)).bind
    fun thenEnd p₃ h₃ hThen => ?_
  refine (keeps_runBranch hFalse fun m hm =>
    (hFalseIn m hm).later (L.trans h₁ (L.trans h₂ h₃))).bind fun elseEnd p₄ h₄ hElse => ?_
  refine (keeps_noteBridges _).bind fun _ p₅ h₅ _ => (keeps_setScope _).bind fun _ p₆ h₆ _ => ?_
  have hJoined : L.later p₄ p₆ := L.trans h₅ h₆
  refine (keeps_close s _ (hThen.later (L.trans h₄ hJoined))).bind fun thenNode p₇ h₇ hThen' => ?_
  refine (keeps_close s _ (hElse.later (L.trans hJoined h₇))).bind fun elseNode p₈ h₈ hElse' => ?_
  refine keeps_pure fun p₉ h₉ => Node.atomsAll_of_parts trivial fun part hPart => ?_
  have hClosed : L.later p₇ p₉ := L.trans h₈ h₉
  have hBranched : L.later p₂ p₆ := L.trans h₃ (L.trans h₄ hJoined)
  obtain rfl | hPart | hPart : part = test' ∨ thenNode = some part ∨ elseNode = some part := by
    simpa using hPart
  · exact hTest'.later (L.trans h₂ (L.trans hBranched (L.trans h₇ hClosed)))
  · exact (hThen' part hPart).later hClosed
  · exact (hElse' part hPart).later h₉

theorem keeps_loop {s : Span} {test : Node} {body : Option Node} (hTest : Kept L answer test)
    (hBody : ∀ m, body = some m → Kept L answer m) (hTestIn : L.Admits p test)
    (hBodyIn : ∀ m, body = some m → L.Admits p m) :
    (loop s test body).Keeps L answer p fun q o => L.Admits q o.node := by
  refine keeps_getScope.bind fun _ p₁ h₁ _ => ?_
  refine (hTest.node (hTestIn.later h₁)).bind fun test' p₂ h₂ hTest' => ?_
  refine keeps_getScope.bind fun _ p₃ h₃ _ => ?_
  refine (keeps_runBranch hBody fun m hm =>
    (hBodyIn m hm).later (L.trans h₁ (L.trans h₂ h₃))).bind fun e p₄ h₄ hEnd => ?_
  refine keeps_getScope.bind fun _ p₅ h₅ _ => (keeps_noteBridges _).bind fun _ p₆ h₆ _ =>
    (keeps_setScope _).bind fun _ p₇ h₇ _ => ?_
  refine keeps_pure fun p₈ h₈ => Node.atomsAll_of_parts trivial fun part hPart => ?_
  have hLast : L.later p₄ p₈ := L.trans h₅ (L.trans h₆ (L.trans h₇ h₈))
  obtain rfl | hPart := List.mem_cons.mp hPart
  · exact hTest'.later (L.trans h₃ (L.trans h₄ hLast))
  · exact Norm.admits_closeLoop s _ (hEnd.later hLast) part (Option.mem_toList.mp hPart)

theorem keeps_optionBlock {s : Span} {b : Option (Block Node)}
    (h : ∀ m, b.bind (·.body) = some m → Kept L answer m)
    (hb : ∀ m, b.bind (·.body) = some m → L.Admits p m) :
    (optionBlock s b).Keeps L answer p
      fun q b => ∀ m, b.bind (·.body) = some m → L.Admits q m := by
  cases b with
  | none => exact keeps_pure fun _ _ => nofun
  | some b =>
    have hBlock : (runBlock s b).Keeps L answer p
        fun q b => ∀ m, b.body = some m → L.Admits q m := by
      refine keeps_getScope.bind fun _ p₁ h₁ _ => (keeps_noteParams _).bind fun _ p₂ h₂ _ =>
        (keeps_setScope _).bind fun _ p₃ h₃ _ => ?_
      refine (keeps_runBranch h fun m hm =>
        (hb m hm).later (L.trans h₁ (L.trans h₂ h₃))).bind fun e p₄ h₄ hEnd => ?_
      refine keeps_getScope.bind fun _ p₅ h₅ _ => (keeps_noteBridges _).bind fun _ p₆ h₆ _ =>
        (keeps_setScope _).bind fun _ p₇ h₇ _ => ?_
      refine (keeps_close s _ (hEnd.later (L.trans h₅ (L.trans h₆ h₇)))).bind
        fun body p₈ _ hBody => keeps_pure fun p₉ h₉ m hm => (hBody m hm).later h₉
    exact hBlock.bind fun b' q _ hb' => keeps_pure fun r hr m hm => (hb' m hm).later hr

/-! ## Constructs -/

theorem keeps_assign {s : Span} {target value : Node} (hTarget : Kept L answer target)
    (hValue : Kept L answer value) (hTargetIn : L.Admits p target)
    (hValueIn : L.Admits p value) :
    (assign s target value).Keeps L answer p fun q o => L.Admits q o.node := by
  have hRest : ∀ v q, L.later p q → L.Admits q v → (Code.target target >>= fun t =>
      Pure.pure ⟨.assign s t v, false⟩ : Code Outcome).Keeps L answer q
        fun r o => L.Admits r o.node := fun v q hq hv =>
    (hTarget.target (hTargetIn.later hq)).bind fun t r hr ht => keeps_pure fun r' hr' =>
      AtomLaw.admits_assign s (ht.later hr') (hv.later (L.trans hr hr'))
  unfold assign
  split
  · exact (hValue.apart [] hValueIn).bind hRest
  · exact (hValue.node hValueIn).bind hRest

theorem keeps_interp {s : Span} {pieces : List Node} (h : ∀ n ∈ pieces, Kept L answer n)
    (hPieces : ∀ n ∈ pieces, L.Admits p n) :
    (interp s pieces).Keeps L answer p fun q o => L.Admits q o.node := by
  refine (keeps_nodes h hPieces).bind fun ns q _ hns => keeps_pure fun r hr => ?_
  refine AtomLaw.admits_send s _ (List.foldlRecOn ns _ ?_ fun acc hAcc piece hPiece => ?_) nofun
  · exact AtomLaw.admits_send s _ (AtomLaw.admits_globalConst s _) nofun
  · exact AtomLaw.admits_send s _ hAcc (List.forall_mem_singleton.mpr ((hns piece hPiece).later hr))

theorem admits_arrayStatements (s : Span) {type : Node} {t : Symbol} {elements : List Node}
    (hType : L.Admits p type) (ht : L.admits p (.temp t))
    (hElements : ∀ n ∈ elements, L.Admits p n) :
    ∀ n ∈ Pending.arrayStatements s type t elements, L.Admits p n := by
  have hTemp : ∀ s : Span, L.Admits p (.temp s t) := fun s => Node.atomsAll_atom ht
  have hInt : ∀ (s : Span) (k : Int), ∀ m ∈ [Node.int s k], L.Admits p m := fun s k =>
    List.forall_mem_singleton.mpr (AtomLaw.admits_int s k)
  refine List.forall_mem_append.mpr ⟨List.forall_mem_append.mpr
    ⟨List.forall_mem_cons.mpr ⟨?_, List.forall_mem_singleton.mpr ?_⟩, fun n hn => ?_⟩,
    List.forall_mem_singleton.mpr (hTemp s)⟩
  · exact AtomLaw.admits_assign s (hTemp s) (AtomLaw.admits_send s _ hType (hInt _ _))
  · exact AtomLaw.admits_send s _ (hTemp s) (hInt _ _)
  · obtain ⟨i, hi, rfl⟩ := List.mem_mapIdx.mp hn
    exact AtomLaw.admits_send _ _ (AtomLaw.admits_send _ _ (hTemp _) nofun)
      (List.forall_mem_cons.mpr ⟨AtomLaw.admits_int _ _,
        List.forall_mem_singleton.mpr (hElements _ (List.getElem_mem hi))⟩)

theorem keeps_array {s : Span} {elements : List Node} {type : Option ConstPath}
    (h : ∀ n ∈ elements, Kept L answer n) (hElements : ∀ n ∈ elements, L.Admits p n) :
    (array s elements type).Keeps L answer p fun q o => L.Admits q o.node := by
  refine (keeps_nodes h hElements).bind fun ns p₁ _ hns => ?_
  have hExprs := GenericType.forall_exprs_array type hns
  refine (keeps_genericType .array _ hExprs).bind fun id p₂ h₂ hId => ?_
  have hType : L.Admits p₂ (.atom s (.generic id)) := Node.atomsAll_atom hId
  dsimp only
  split
  · exact keeps_pure fun p₃ h₃ => AtomLaw.admits_send s _ (hType.later h₃)
      (List.forall_mem_singleton.mpr (AtomLaw.admits_int s 0))
  · refine keeps_freshTemp.bind fun t p₃ h₃ ht => keeps_pure fun p₄ h₄ => AtomLaw.admits_seq.mpr ?_
    have hLater := L.trans h₃ h₄
    exact admits_arrayStatements s (hType.later hLater) (L.mono h₄ ht)
      fun n hn => (hns n hn).later (L.trans h₂ hLater)

theorem admits_hashStatements (s : Span) {empty : Node} {t : Symbol}
    {entries : List (HashEntry Node)} (hEmpty : L.Admits p empty) (ht : L.admits p (.temp t))
    (hEntries : AdmitsEntries L p entries) :
    ∀ n ∈ Pending.hashStatements s empty t entries, L.Admits p n := by
  have hTemp : ∀ s : Span, L.Admits p (.temp s t) := fun s => Node.atomsAll_atom ht
  refine List.forall_mem_append.mpr ⟨List.forall_mem_append.mpr
    ⟨List.forall_mem_singleton.mpr (AtomLaw.admits_assign s (hTemp s) hEmpty), fun n hn => ?_⟩,
    List.forall_mem_singleton.mpr (hTemp s)⟩
  obtain ⟨e, he, rfl⟩ := List.mem_map.mp hn
  obtain ⟨hKey, hValue⟩ := hEntries e he
  exact AtomLaw.admits_send _ _ (hTemp _)
    (List.forall_mem_cons.mpr ⟨hKey, List.forall_mem_singleton.mpr hValue⟩)

theorem keeps_hash {s : Span} {entries : List (HashEntry Node)} {types : Option HashTypes}
    (h : ∀ e ∈ entries, Kept L answer e.key ∧ Kept L answer e.value)
    (hEntries : AdmitsEntries L p entries) :
    (hash s entries types).Keeps L answer p fun q o => L.Admits q o.node := by
  refine (keeps_entryNodes h hEntries).bind fun es p₁ _ hes => ?_
  have hExprs := GenericType.forall_exprs_hash types hes
  refine (keeps_genericType .hash _ hExprs).bind fun id p₂ h₂ hId => ?_
  have hEmpty : L.Admits p₂ (.send s (.atom s (.generic id)) .newName []) :=
    AtomLaw.admits_send s _ (Node.atomsAll_atom hId) nofun
  dsimp only
  split
  · exact keeps_pure fun p₃ h₃ => hEmpty.later h₃
  · refine keeps_freshTemp.bind fun t p₃ h₃ ht => keeps_pure fun p₄ h₄ => AtomLaw.admits_seq.mpr ?_
    have hLater := L.trans h₃ h₄
    exact admits_hashStatements s (hEmpty.later hLater) (L.mono h₄ ht) fun e he =>
      ⟨(hes e he).1.later (L.trans h₂ hLater), (hes e he).2.later (L.trans h₂ hLater)⟩

end Code

open Code

/-- One call of the normalizer keeps the law, if the calls in it and the answers do. -/
theorem Node.keeps_code {n : Node}
    (hAnswer : ∀ s path p, (Code.require s path).Keeps L answer p L.Admits)
    (hParts : ∀ part ∈ n.parts, Kept L answer part) (hMeans : ∀ m, n.Means m → Kept L answer m)
    (hn : L.Admits p n) : n.code.Keeps L answer p fun q o => L.Admits q o.node := by
  have hIn : ∀ part ∈ n.parts, L.Admits p part := AtomsAll.parts hn
  have hNew : ∀ {q : Program} {temps : Symbol → Prop}, (∀ t, temps t → L.admits q (.temp t)) →
      ∀ m : Node, m.IsNew temps (fun _ => True) → m.AtomIs (L.admits q) := fun hTemps m hm =>
    hm.atomIs (L.plain _ nofun nofun) (fun _ => L.plain _ nofun nofun) hTemps
  cases n with
  | atom s a => exact keeps_pure fun q hq => hn.later hq
  | var s v =>
    exact (keeps_useVar s v).bind fun _ _ _ _ => keeps_pure fun _ _ => AtomLaw.admits_var s _
  | seq s stmts =>
    exact (keeps_statements hParts hIn).bind fun r q _ hr => keeps_pure fun _ hLater =>
      AtomLaw.admits_ofStatements s fun m hm => (hr m hm).later hLater
  | cond s form test body other =>
    have hBody : ∀ m, body = some m → m ∈ (cond s form test body other).parts := by
      rintro m rfl
      simp
    have hOther : ∀ m, other = some m → m ∈ (cond s form test body other).parts := by
      rintro m rfl
      simp
    have hTest := hParts test (.head _)
    have hTestIn := hIn test (.head _)
    cases form with
    | whenTrue =>
      exact keeps_ifElse hTest (fun m hm => hParts m (hBody m hm))
        (fun m hm => hParts m (hOther m hm)) hTestIn (fun m hm => hIn m (hBody m hm))
        fun m hm => hIn m (hOther m hm)
    | whenFalse =>
      exact keeps_ifElse hTest (fun m hm => hParts m (hOther m hm))
        (fun m hm => hParts m (hBody m hm)) hTestIn (fun m hm => hIn m (hOther m hm))
        fun m hm => hIn m (hBody m hm)
  | loop s test body =>
    exact keeps_loop (hParts test (.head _)) (fun m hm => hParts m (by simp [hm]))
      (hIn test (.head _)) fun m hm => hIn m (by simp [hm])
  | choose s subject whens other =>
    refine keeps_unfolded (fun t => hMeans _ (.choose t)) fun q t hq ht => ?_
    have hSaved : Pending.isScrutinee subject = false → L.admits q (.temp t) := fun hFalse =>
      ht (by rw [hFalse]; rfl)
    exact everywhere_chooseAsChain (hNew fun x (hx : x = t ∧ Pending.isScrutinee subject = false) =>
      hx.1 ▸ hSaved hx.2) s (fun hFalse => ⟨⟨rfl, hFalse⟩, trivial⟩) (hn.later hq)
  | logic s op left right =>
    refine keeps_unfolded (fun t => hMeans _ (.logic t)) fun q t hq ht => ?_
    have hIn := AtomsAll.parts (hn.later hq)
    exact everywhere_logicAsCond (hNew fun x (hx : x = t ∧ savesLeft op left = true) =>
      hx.1 ▸ ht hx.2) s op (fun hTrue => ⟨⟨rfl, hTrue⟩, trivial⟩) (hIn left (by simp))
        (hIn right (by simp))
  | jump s kind value =>
    refine (keeps_optionNode (fun m hm => hParts m (by simp [hm]))
      fun m hm => hIn m (by simp [hm])).bind fun value' q _ hValue => keeps_pure fun r hr => ?_
    exact atomsAll_of_parts trivial fun part hPart =>
      (hValue part (Option.mem_toList.mp hPart)).later hr
  | assign s target value =>
    exact keeps_assign (hParts target (by simp)) (hParts value (by simp)) (hIn target (by simp))
      (hIn value (by simp))
  | multi s lefts values =>
    have hLefts : ∀ m ∈ lefts, m ∈ (multi s lefts values).parts := fun m hm => by simp [hm]
    have hValues : ∀ m ∈ values, m ∈ (multi s lefts values).parts := fun m hm => by simp [hm]
    refine (keeps_nodes (fun m hm => hParts m (hValues m hm)) fun m hm =>
      hIn m (hValues m hm)).bind fun vs q hq hvs => ?_
    refine (keeps_targets (fun m hm => hParts m (hLefts m hm)) fun m hm =>
      (hIn m (hLefts m hm)).later hq).bind fun ts r hr hts => keeps_pure fun r' hr' => ?_
    exact atomsAll_of_parts trivial (List.forall_mem_append.mpr
      ⟨fun m hm => (hts m hm).later hr', fun m hm => (hvs m hm).later (L.trans hr hr')⟩)
  | call s receiver name args block =>
    have hReceiver : ∀ m, receiver = some m → m ∈ (call s receiver name args block).parts := by
      rintro m rfl
      simp
    have hArgs : ∀ m ∈ args, m ∈ (call s receiver name args block).parts := fun m hm => by simp [hm]
    have hBlock : ∀ m, block.bind (·.body) = some m →
        m ∈ (call s receiver name args block).parts := fun m hm => by simp [hm]
    refine (keeps_optionNode (fun m hm => hParts m (hReceiver m hm)) fun m hm =>
      hIn m (hReceiver m hm)).bind fun receiver' p₁ h₁ hReceiver' => ?_
    refine (keeps_nodes (fun m hm => hParts m (hArgs m hm)) fun m hm =>
      (hIn m (hArgs m hm)).later h₁).bind fun args' p₂ h₂ hArgs' => ?_
    refine (keeps_optionBlock (fun m hm => hParts m (hBlock m hm)) fun m hm =>
      (hIn m (hBlock m hm)).later (L.trans h₁ h₂)).bind fun block' p₃ h₃ hBlock' => ?_
    refine keeps_pure fun p₄ h₄ => atomsAll_of_parts trivial fun part hPart => ?_
    obtain hPart | hPart | hPart : receiver' = some part ∨ part ∈ args' ∨
        block'.bind (·.body) = some part := by simpa using hPart
    · exact (hReceiver' part hPart).later (L.trans h₂ (L.trans h₃ h₄))
    · exact (hArgs' part hPart).later (L.trans h₃ h₄)
    · exact (hBlock' part hPart).later h₄
  | isA s subject type =>
    exact ((hParts subject (by simp)).node (hIn subject (by simp))).bind fun m q _ hm =>
      keeps_pure fun r hr => atomsAll_of_parts trivial (List.forall_mem_singleton.mpr (hm.later hr))
  | define s kind name params body =>
    show (Code.define s kind name params body).Keeps L answer p _
    unfold Code.define
    split
    · rename_i hDefault
      refine hMeans _ (.define hDefault) p (everywhere_expandedDefine
        (hNew fun t (ht : False) => ht.elim) (fun m hm => ?_) s kind name hn)
      cases m with
      | define => trivial
      | _ => cases hm
    · refine (keeps_optionApart _ (fun m hm => hParts m (by simp [hm])) fun m hm =>
        hIn m (by simp [hm])).bind fun body' q _ hBody => keeps_pure fun r hr => ?_
      refine atomsAll_of_parts trivial fun part hPart => ?_
      obtain ⟨m, hm, hOption⟩ : ∃ m, body' = some m ∧ m.toOption = some part := by
        simpa [plainParams, Option.bind_eq_some_iff] using hPart
      obtain ⟨rfl, -⟩ := (m.toOption_eq_some_iff part).mp hOption
      exact (hBody m hm).later hr
  | interp s pieces => exact keeps_interp hParts hIn
  | range s first last exclusive =>
    refine ((hParts first (by simp)).node (hIn first (by simp))).bind fun first' p₁ h₁ hFirst => ?_
    refine ((hParts last (by simp)).node ((hIn last (by simp)).later h₁)).bind
      fun last' p₂ h₂ hLast => keeps_pure fun p₃ h₃ => ?_
    exact AtomLaw.admits_send s _ (AtomLaw.admits_globalConst s _) (List.forall_mem_cons.mpr
      ⟨hFirst.later (L.trans h₂ h₃), List.forall_mem_cons.mpr
        ⟨hLast.later h₃, List.forall_mem_singleton.mpr (AtomLaw.admits_bool s _)⟩⟩)
  | regex s text =>
    refine Keeps.bind (Q := fun _ _ => True) (Norm.keeps_onProgram fun r hSound _ =>
      ⟨L.regexConstant text s hSound, trivial⟩) fun name q _ _ => keeps_pure fun _ _ => ?_
    exact AtomLaw.admits_globalConst s name
  | array s elements type => exact keeps_array hParts hIn
  | hash s entries types =>
    have hEntry : ∀ e ∈ entries, e.key ∈ (hash s entries types).parts ∧
        e.value ∈ (hash s entries types).parts := fun e he =>
      ⟨List.mem_flatMap.mpr ⟨e, he, by simp⟩, List.mem_flatMap.mpr ⟨e, he, by simp⟩⟩
    exact keeps_hash (fun e he => ⟨hParts _ (hEntry e he).1, hParts _ (hEntry e he).2⟩)
      fun e he => ⟨hIn _ (hEntry e he).1, hIn _ (hEntry e he).2⟩
  | require s path =>
    exact (hAnswer s path p).bind fun n q _ hn => keeps_pure fun r hr => hn.later hr

/-- Whatever program admits a tree, the normalizer keeps the law. -/
theorem Node.kept (hAnswer : ∀ s path p, (Code.require s path).Keeps L answer p L.Admits)
    (n : Node) : Kept L answer n := by
  induction hWeight : n.weight using Nat.strongRecOn generalizing n with
  | _ w ih =>
    subst hWeight
    intro p hn
    have hParts : ∀ part ∈ n.parts, Kept L answer part := fun part hPart =>
      ih _ (weight_lt_of_mem_parts hPart) part rfl
    have hCode := keeps_code hAnswer hParts (fun m hm => ih _ hm.weight_lt m rfl) hn
    rw [Code.Keeps, n.denote_code answer] at hCode
    exact hCode

/-! ## Requires -/

theorem keeps_resolveRequire (file : Option SourcePath) (path : Symbol) :
    (resolveRequire file path).Keeps L p fun q found =>
      ∀ f, found = some f → L.Admits q f.root := by
  intro st hSound _
  have hResolve := L.resolve (st.program.names.text path) file hSound
  rw [run_resolveRequire]
  revert hResolve
  generalize st.program.resolve (st.program.names.text path) file = r
  obtain ⟨_ | found, program⟩ := r
  · exact fun h => ⟨h.1, h.2.1⟩
  · exact fun h => ⟨⟨h.1, h.2.1⟩, fun f hf => h.2.2 f (by rw [hf])⟩

/-- Files keep the law as well, however deep they nest. -/
theorem keeps_answerRequire (L : AtomLaw) (depth : Nat) (file : Option SourcePath) (s : Span)
    (path : Symbol) (p : Program) :
    (Code.require s path).Keeps L (answerRequire depth file) p L.Admits := by
  induction depth generalizing file s path p with
  | zero =>
    exact (keeps_resolveRequire file path).bind fun _ _ _ _ => Norm.keeps_pure fun _ _ =>
      AtomLaw.admits_nop s
  | succ depth ih =>
    refine Norm.Keeps.bind (keeps_resolveRequire file path) fun found q hq hFound => ?_
    cases found with
    | none => exact Norm.keeps_pure fun _ _ => AtomLaw.admits_nop s
    | some found =>
      have hRoot := (Node.kept (ih (some (.ofLocation found.file))) found.root).node
        (hFound found rfl)
      refine Norm.Keeps.bind (hRoot.inScope .empty) fun n r hr hn => ?_
      refine Norm.Keeps.bind (Q := fun _ _ => True) (Norm.keeps_onProgram fun q' hSound _ =>
        ⟨L.track _ hSound, trivial⟩) fun _ r' hr' _ => ?_
      exact Norm.keeps_pure fun _ hLater => hn.later (L.trans hr' hLater)

/-- A program that is sound stays so through a normalization, and comes later, whether the tree
normalizes or not, and the law holds of the result. -/
theorem Program.keeps_normalize (L : AtomLaw) {p : Program} (hSound : L.sound p)
    (file : Option SourcePath) {root : Node} (hRoot : L.Admits p root) :
    (L.sound (p.normalize file root).2 ∧ L.later p (p.normalize file root).2) ∧
      ∀ n, (p.normalize file root).1 = .ok n → L.Admits (p.normalize file root).2 n := by
  have hKeeps : (root.pending (answerRequire p.loader.files.length file)).node.Keeps L p L.Admits :=
    (Node.kept (keeps_answerRequire L p.loader.files.length file) root).node hRoot
  have hRun := hKeeps ⟨p, .empty⟩ hSound (L.refl p)
  unfold normalize
  rw [EStateM.run] at hRun
  cases hCase : (root.pending (answerRequire p.loader.files.length file)).node ⟨p, .empty⟩ with
  | error e st =>
    rw [hCase] at hRun
    exact ⟨hRun, nofun⟩
  | ok n st =>
    rw [hCase] at hRun
    dsimp only
    split
    · exact ⟨hRun.1, nofun⟩
    · refine ⟨hRun.1, ?_⟩
      rintro _ ⟨⟩
      exact hRun.2

theorem Program.keeps_normalizeFile (L : AtomLaw) {p : Program} (hSound : L.sound p)
    (file : SourcePath) {root : Node} (hRoot : L.Admits p root) :
    (L.sound (p.normalizeFile file root).2 ∧ L.later p (p.normalizeFile file root).2) ∧
      ∀ n, (p.normalizeFile file root).1 = .ok n → L.Admits (p.normalizeFile file root).2 n := by
  unfold normalizeFile beginFile
  cases p.requires.start file.location.normal with
  | error e => exact ⟨⟨hSound, L.refl p⟩, nofun⟩
  | ok requires =>
    obtain ⟨hStart, hLater⟩ := L.track requires hSound
    have hNormal := keeps_normalize L hStart (some file) (hRoot.later hLater)
    dsimp only [Except.map]
    revert hNormal
    generalize Program.normalize _ (some file) root = r
    obtain ⟨result, q⟩ := r
    rintro ⟨⟨hSound', hLater'⟩, hResult⟩
    obtain ⟨hFinished, hFinish⟩ := L.track (q.requires.finish file.location.normal) hSound'
    have hDone := L.trans hLater (L.trans hLater' hFinish)
    match result with
    | .error (.fault f) => exact ⟨⟨hSound', L.trans hLater hLater'⟩, nofun⟩
    | .error (.error e) => exact ⟨⟨hFinished, hDone⟩, nofun⟩
    | .ok n => exact ⟨⟨hFinished, hDone⟩, fun m hm => (hResult m hm).later hFinish⟩

end CoreTree
