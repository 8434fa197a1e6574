import CoreTree.Proofs.Temps.Constructs

/-! # Trees share out temporaries

Sugar is looked at in the simpler terms that it stands for. A subject or a left side that is saved
is normalized before anything else is told of the temporary.
-/
namespace CoreTree
set_option autoImplicit false

open Node Program

variable {known : Symbol → Prop} {base p q : Program} {held ms : List Node} {n : Node}
  {t : Symbol} {answer : RequireHandler}

namespace Node

/-- What is new in the simpler terms of sugar mentions no temporaries but the given ones. -/
theorem IsNew.temps {temps : Symbol → Prop} (h : n.IsNew temps fun _ => False) :
    (∀ x, n.temp? = some x → temps x) ∧ n.closedParts = [] := by
  obtain ⟨hGlue, hNew, hDefine⟩ := h
  cases n with
  | atom s a =>
    refine ⟨fun x hx => ?_, rfl⟩
    obtain ⟨_, hEq⟩ := temp?_eq_some_iff.mp hx
    cases hEq
    exact hNew
  | assign s target value =>
    unfold IsGlue at hGlue
    split at hGlue
    · rename_i hEq
      cases hEq
      exact hNew.elim
    all_goals simp_all
  | multi => exact hGlue.elim
  | define => cases hDefine
  | _ => exact ⟨nofun, rfl⟩

theorem IsNew.sourceTidy {temps : Symbol → Prop} (hTemps : ∀ x, temps x → known x ∨ p.Own x)
    (h : n.IsNew temps fun _ => False) : (∀ x, n.temp? = some x → known x ∨ p.Own x) ∧
      ∀ c ∈ n.closedParts, ∀ x, c.HasTemp x → p.Own x := by
  obtain ⟨hTemp, hClosed⟩ := h.temps
  rw [hClosed]
  exact ⟨fun x hx => hTemps x (hTemp x hx), nofun⟩

theorem allOwn_iff : n.AllOwn p ↔ n.Everywhere true fun m => ∀ x, m.temp? = some x → p.Own x := by
  constructor
  · exact fun h m hm x hx => h x (.of_has (reaches_true_iff.mp hm) (hasTemp_iff.mpr (.inl hx)))
  · rintro h x ⟨s, hHas⟩
    exact h _ (reaches_true_iff.mpr hHas) x rfl

end Node

namespace Code

section

variable (hKnown : ∀ t, known t → p.Old t)
include hKnown

/-- Sugar with a temporary, or with none. -/
theorem leadsTo_unfolded {saves : Bool} {meaning : Symbol → Node}
    (hSaves : saves = true → (transform (meaning p.freshTemp.1)).LeadsTo answer p.freshTemp.2
      fun q o => p.Grown known q [o.node])
    (hPlain : saves = false → Shares answer (meaning .empty) ∧
      (meaning .empty).SourceTidy known p) :
    (unfolded saves meaning).LeadsTo answer p fun q o => p.Grown known q [o.node] := by
  unfold unfolded
  cases saves with
  | true =>
    refine leadsTo_freshTemp.bind ?_
    rintro _ _ - ⟨rfl, rfl⟩
    exact hSaves rfl
  | false =>
    obtain ⟨hShares, hTidy⟩ := hPlain rfl
    exact hShares known p hKnown hTidy

theorem leadsTo_logic {s : Span} {op : LogicOp} {left right : Node} (hLeft : Shares answer left)
    (hRight : Shares answer right) (hMeans : ∀ t, Shares answer (logicAsCond s t op left right))
    (hTidy : (logic s op left right).SourceTidy known p) :
    (logic s op left right).code.LeadsTo answer p fun q o => p.Grown known q [o.node] := by
  have hLeftIn : left.SourceTidy known p := hTidy.parts left (.head _)
  have hRightIn : right.SourceTidy known p := hTidy.parts right (.tail _ (.head _))
  have hTempIn : (temp left.span p.freshTemp.1).SourceTidy
      (fun x => x = p.freshTemp.1 ∨ known x) p.freshTemp.2 :=
    tidy_of_parts (fun x hx => .inl (.inl (Option.some.inj hx).symm)) nofun nofun
  have hRightIn' : right.SourceTidy (fun x => x = p.freshTemp.1 ∨ known x) p.freshTemp.2 :=
    (hRightIn.later (later_freshTemp p)).mono (fun _ => Or.imp_left .inr) fun _ => id
  refine leadsTo_unfolded hKnown (fun hSaves => ?_) fun hPlain => ⟨hMeans _, ?_⟩
  · cases op with
    | and =>
      rw [logicAsCond, if_neg (by simpa [savesLeft] using hSaves)]
      refine leadsTo_savedCond hKnown hLeft ?_ ?_ hLeftIn ?_ ?_
      all_goals rintro _ ⟨⟩
      · exact hRight
      · exact shares_atom _ _
      · exact hRightIn'
      · exact hTempIn
    | or =>
      rw [logicAsCond, if_neg (by simpa [savesLeft] using hSaves)]
      refine leadsTo_savedCond hKnown hLeft ?_ ?_ hLeftIn ?_ ?_
      all_goals rintro _ ⟨⟩
      · exact shares_atom _ _
      · exact hRight
      · exact hTempIn
      · exact hRightIn'
  · refine everywhere_logicAsCond (fun m hm => hm.sourceTidy fun _ (hNone : False) => hNone.elim)
      s op (fun hTrue => ?_) hLeftIn hRightIn
    rw [hPlain] at hTrue
    cases hTrue

theorem leadsTo_choose {s : Span} {subject : Node} {whens : List (When Node)} {other : Option Node}
    (hSubject : Shares answer subject)
    (hMeans : ∀ t, Shares answer (chooseAsChain s t subject whens other))
    (hChain : ∀ t, Pending.isScrutinee subject = false →
      Shares answer (clauseChain s (.temp subject.span t) whens other))
    (hTidy : (choose s subject whens other).SourceTidy known p) :
    (choose s subject whens other).code.LeadsTo answer p fun q o => p.Grown known q [o.node] := by
  refine leadsTo_unfolded hKnown (fun hSaves => ?_) fun hPlain => ⟨hMeans _, ?_⟩
  · have hScrutinee : Pending.isScrutinee subject = false := by simpa using hSaves
    rw [chooseAsChain, if_neg (by simp [hScrutinee])]
    refine leadsTo_savedSeq hKnown hSubject (hChain _ hScrutinee) (hTidy.parts subject (.head _)) ?_
    have hIn : (choose s subject whens other).SourceTidy
        (fun x => x = p.freshTemp.1 ∨ known x) p.freshTemp.2 :=
      (hTidy.later (later_freshTemp p)).mono (fun _ => Or.imp_left .inr) fun _ => id
    have hNew : ∀ m : Node, m.IsNew (· = p.freshTemp.1) (fun _ => False) →
        (∀ x, m.temp? = some x → (x = p.freshTemp.1 ∨ known x) ∨ p.freshTemp.2.Own x) ∧
          ∀ c ∈ m.closedParts, ∀ x, c.HasTemp x → p.freshTemp.2.Own x := fun m hm =>
      hm.sourceTidy fun _ hx => .inl (.inl hx)
    exact everywhere_chain_of_choose hNew s (everywhere_temp hNew _ rfl) hIn
  · refine everywhere_chooseAsChain
      (fun m hm => hm.sourceTidy fun _ (hNone : False) => hNone.elim) s (fun hFalse => ?_) hTidy
    rw [hFalse] at hPlain
    cases hPlain

/-! ## Definitions and assignments -/

theorem leadsTo_define {s : Span} {kind : DefKind} {name : Symbol} {params : List (Param Node)}
    {body : Option Node} (hBody : ∀ m, body = some m → Shares answer m)
    (hMeans : ∀ m, (Node.define s kind name params body).Means m → Shares answer m)
    (hTidy : (Node.define s kind name params body).SourceTidy known p) :
    (Node.define s kind name params body).code.LeadsTo answer p
      fun q o => p.Grown known q [o.node] := by
  have hOwn : (Node.define s kind name params body).AllOwn p := by
    intro x hx
    obtain hEq | ⟨part, hPart, hx⟩ := hasTemp_iff.mp hx
    · cases hEq
    · exact hTidy.of_closedPart hPart hx
  show (Code.define s kind name params body).LeadsTo answer p _
  unfold Code.define
  split
  · rename_i hDefault
    refine hMeans _ (.define hDefault) known p hKnown (AllOwn.tidy (allOwn_iff.mpr ?_))
    refine everywhere_expandedDefine (fun m hm x hx => (hm.temps.1 x hx : False).elim)
      (fun m hm x hx => ?_) s kind name (allOwn_iff.mp hOwn)
    obtain ⟨_, rfl⟩ := temp?_eq_some_iff.mp hx
    cases hm
  · refine (leadsTo_optionApart hKnown (grown_nil p) _ hBody fun m hm x hx =>
      hOwn x (.of_part (by simp [hm]) hx)).bind fun body' q _ hb => leadsTo_pure ?_
    obtain ⟨hGrown, hMade⟩ := hb
    have hParts : (Node.define s kind name (plainParams (params.map (·.name)))
        (body'.bind Node.toOption)).parts = (body'.bind Node.toOption).toList := by
      simp [plainParams]
    refine ⟨hGrown.later, .node ?_ rfl fun c hc x hx => ?_⟩
    · rw [hParts]
      cases body' with
      | none => exact hGrown.allotted
      | some m => exact hGrown.allotted.toOption
    · have hc := closedParts_subset _ hc
      rw [hParts, Option.mem_toList, Option.bind_eq_some_iff] at hc
      obtain ⟨m, rfl, hOption⟩ := hc
      obtain ⟨rfl, -⟩ := (m.toOption_eq_some_iff c).mp hOption
      exact hMade m rfl x hx

theorem leadsTo_assign {s : Span} {target value : Node} (hTarget : Shares answer target)
    (hValue : Shares answer value) (hTidy : (Node.assign s target value).SourceTidy known p) :
    (Node.assign s target value).code.LeadsTo answer p fun q o => p.Grown known q [o.node] := by
  have hRest : ∀ v q, p.Later q → p.Grown known q [v] → (Code.target target >>= fun t =>
      Pure.pure ⟨.assign s t v, false⟩ : Code Outcome).LeadsTo answer q
        fun r o => p.Grown known r [o.node] := by
    intro v q _ hv
    refine (hTarget.target hKnown hv fun x hx => hTidy.of_closedPart (.head _) hx).bind
      fun t r _ ht => leadsTo_pure ⟨ht.1.later, .node ht.1.allotted rfl ?_⟩
    exact List.forall_mem_singleton.mpr ht.2
  have hNode := hValue.node hKnown (grown_nil p) (hTidy.parts value (by simp))
  show (Code.assign s target value).LeadsTo answer p _
  unfold Code.assign
  split
  · exact (hNode.apart []).bind hRest
  · exact hNode.bind hRest

theorem leadsTo_multi {s : Span} {targets values : List Node}
    (hTargets : ∀ m ∈ targets, Shares answer m) (hValues : ∀ m ∈ values, Shares answer m)
    (hTidy : (Node.multi s targets values).SourceTidy known p) :
    (Node.multi s targets values).code.LeadsTo answer p fun q o => p.Grown known q [o.node] := by
  refine (leadsTo_nodes hKnown (grown_nil p) hValues fun m hm =>
    hTidy.parts m (List.mem_append_right _ hm)).bind fun vs q _ hvs => ?_
  refine (leadsTo_targets hKnown hvs hTargets fun m hm x hx => hTidy.of_closedPart hm hx).bind
    fun ts r _ hts => leadsTo_pure ⟨hts.1.later, .node ?_ rfl hts.2⟩
  have hAll := hts.1.allotted
  rw [← List.append_assoc] at hAll
  exact hAll

/-! ## Calls -/

theorem leadsTo_call {s : Span} {receiver : Option Node} {name : Symbol} {args : List Node}
    {block : Option (Block Node)}
    (hParts : ∀ m ∈ (Node.call s receiver name args block).parts, Shares answer m)
    (hTidy : (Node.call s receiver name args block).SourceTidy known p) :
    (Node.call s receiver name args block).code.LeadsTo answer p
      fun q o => p.Grown known q [o.node] := by
  have hReceiver : ∀ m, receiver = some m → m ∈ (Node.call s receiver name args block).parts := by
    rintro m rfl
    simp
  have hArgs : ∀ m ∈ args, m ∈ (Node.call s receiver name args block).parts := fun m hm => by
    simp [hm]
  have hBlock : ∀ m, block.bind (·.body) = some m →
      m ∈ (Node.call s receiver name args block).parts := fun m hm => by simp [hm]
  refine (leadsTo_optionNode hKnown (grown_nil p) (fun m hm => hParts m (hReceiver m hm))
    fun m hm => hTidy.parts m (hReceiver m hm)).bind fun receiver' p₁ _ h₁ => ?_
  refine (leadsTo_nodes hKnown h₁ (fun m hm => hParts m (hArgs m hm)) fun m hm =>
    hTidy.parts m (hArgs m hm)).bind fun args' p₂ _ h₂ => ?_
  refine (leadsTo_optionBlock hKnown h₂ (fun m hm => hParts m (hBlock m hm)) fun m hm =>
    hTidy.parts m (hBlock m hm)).bind fun block' p₃ _ h₃ => leadsTo_pure ?_
  refine Grown.of_parts (h₃.perm ?_) rfl rfl
  rw [List.append_nil, List.append_nil, parts, ← List.append_assoc receiver'.toList]
  exact List.perm_append_comm.trans (List.perm_append_comm.append_right _)

/-! ## Literals -/

theorem leadsTo_interp {s : Span} {pieces : List Node} (h : ∀ m ∈ pieces, Shares answer m)
    (hTidy : (Node.interp s pieces).SourceTidy known p) :
    (Node.interp s pieces).code.LeadsTo answer p fun q o => p.Grown known q [o.node] := by
  refine (leadsTo_nodes hKnown (grown_nil p) h hTidy.parts).bind fun ms q _ hms => leadsTo_pure ?_
  have hFilled : ∀ acc : Node, p.Grown known q (acc :: (ms ++ [])) → p.Grown known q
      [ms.foldl (fun acc piece => Node.send s acc .append [piece]) acc] := by
    clear hms
    intro acc hAcc
    induction ms generalizing acc with
    | nil => exact hAcc
    | cons m ms ih => exact ih _ (Grown.of_parts hAcc rfl rfl)
  refine Grown.of_parts (hFilled _ (hms.new fun x => ?_)) rfl rfl
  exact not_hasTemp_of_parts rfl (List.forall_mem_singleton.mpr (not_hasTemp_of_parts rfl nofun))

theorem leadsTo_range {s : Span} {first last : Node} {exclusive : Bool}
    (hFirst : Shares answer first) (hLast : Shares answer last)
    (hTidy : (Node.range s first last exclusive).SourceTidy known p) :
    (Node.range s first last exclusive).code.LeadsTo answer p
      fun q o => p.Grown known q [o.node] := by
  refine (hFirst.node hKnown (grown_nil p) (hTidy.parts first (by simp))).bind fun f q _ hf => ?_
  refine (hLast.node hKnown hf (hTidy.parts last (by simp))).bind fun l r _ hl => leadsTo_pure ?_
  have hBoth : p.Grown known r ([f, l] ++ []) := hl.perm (.swap f l [])
  have hRange : BuiltOf (fun _ => False) [] (.globalConst s .range) := builtOf_atom s nofun
  have hExclusive : BuiltOf (fun _ => False) [] (.bool s exclusive) := builtOf_atom s nofun
  exact hBoth.replace (builtOf_send s _ (.cons hRange (.cons (builtOf_self f)
    (.cons (builtOf_self l) (.cons hExclusive .nil)))))

omit hKnown in
theorem builtOf_arrayStatements (s : Span) {type : Node} (hType : ∀ x, ¬ type.HasTemp x)
    (elements : List Node) :
    AllBuiltOf (· = t) elements (Pending.arrayStatements s type t elements) := by
  have hInt : ∀ (s : Span) (k : Int), BuiltOf (· = t) [] (.int s k) := fun s k =>
    builtOf_atom s nofun
  have hTemp : ∀ s : Span, BuiltOf (· = t) [] (.temp s t) := fun s => builtOf_temp s rfl
  have hEmpty : BuiltOf (· = t) []
      (.send s type .newName [.int s (arrayCapacity elements.length)]) :=
    builtOf_send s _ (.cons (builtOf_new fun x hx => (hType x hx).elim) (.cons (hInt _ _) .nil))
  have hSave : BuiltOf (· = t) [] (.assign s (.temp s t)
      (.send s type .newName [.int s (arrayCapacity elements.length)])) := builtOf_save hEmpty rfl
  have hLength : BuiltOf (· = t) [] (.send s (.temp s t) .setLength [.int s elements.length]) :=
    builtOf_send s _ (.cons (hTemp s) (.cons (hInt _ _) .nil))
  have hElement : ∀ (i : Nat) (e : Node), BuiltOf (· = t) [e] (.send e.span
      (.send e.span (.temp e.span t) .buffer []) .indexSet [.int e.span i, e]) := fun i e =>
    builtOf_send _ _ (.cons (builtOf_send _ _ (.cons (hTemp _) .nil))
      (.cons (hInt _ _) (.cons (builtOf_self e) .nil)))
  have hAll := ((AllBuiltOf.cons hSave (.cons hLength .nil)).append
    (.mapIdx hElement elements)).append (.cons (hTemp s) .nil)
  simpa [Pending.arrayStatements] using hAll

omit hKnown in
theorem savesIn_arrayStatements (s : Span) {type : Node} (hType : ¬ type.HasTemp t)
    {elements : List Node} (hElements : ∀ m ∈ elements, ¬ m.HasTemp t) :
    SavesIn t (Pending.arrayStatements s type t elements) := by
  have hAtom : ∀ (s : Span) (k : Int), (Node.int s k).OnlyReads t := fun s k => onlyReads_atom s _
  have hTemp : ∀ s : Span, (Node.temp s t).OnlyReads t := fun s => onlyReads_atom s _
  rw [Pending.arrayStatements, List.append_assoc, List.cons_append, ← List.nil_append (_ :: _)]
  refine .split nofun ?_ (List.forall_mem_append.mpr ⟨?_, List.forall_mem_append.mpr
    ⟨fun m hm => ?_, List.forall_mem_singleton.mpr (hTemp s)⟩⟩)
  · exact not_hasTemp_of_parts rfl (List.forall_mem_cons.mpr
      ⟨hType, List.forall_mem_singleton.mpr (not_hasTemp_of_parts rfl nofun)⟩)
  · exact List.forall_mem_singleton.mpr (onlyReads_send _ _ (hTemp s)
      (List.forall_mem_singleton.mpr (hAtom _ _)))
  · obtain ⟨i, hi, rfl⟩ := List.mem_mapIdx.mp hm
    exact onlyReads_send _ _ (onlyReads_send _ _ (hTemp _) nofun) (List.forall_mem_cons.mpr
      ⟨hAtom _ _, List.forall_mem_singleton.mpr
        (onlyReads_of_not_hasTemp (hElements _ (List.getElem_mem hi)))⟩)

theorem leadsTo_array {s : Span} {elements : List Node} {type : Option ConstPath}
    (h : ∀ m ∈ elements, Shares answer m)
    (hTidy : (Node.array s elements type).SourceTidy known p) :
    (Node.array s elements type).code.LeadsTo answer p fun q o => p.Grown known q [o.node] := by
  refine (leadsTo_nodes hKnown (grown_nil p) h hTidy.parts).bind fun ms p₁ _ hms => ?_
  refine (leadsTo_genericType _ _).bind fun id p₂ hLater hTemps => ?_
  have hms := hms.quiet hKnown hLater hTemps
  have hType : ∀ x, ¬ (Node.atom s (.generic id)).HasTemp x := fun x =>
    not_hasTemp_of_parts rfl nofun
  dsimp only
  split
  · rename_i hEmpty
    obtain ⟨-, hEmpty⟩ := Bool.and_eq_true_iff.mp hEmpty
    rw [List.isEmpty_iff.mp hEmpty] at hms
    refine leadsTo_pure (hms.new fun x => not_hasTemp_of_parts rfl (List.forall_mem_cons.mpr
      ⟨hType x, List.forall_mem_singleton.mpr (not_hasTemp_of_parts rfl nofun)⟩))
  · refine leadsTo_freshTemp.bind ?_
    rintro _ _ - ⟨rfl, rfl⟩
    exact leadsTo_pure (hms.save hKnown ((builtOf_arrayStatements s hType ms).sequenceOf.seq s)
      fun hNone => (savesIn_arrayStatements s (hType _) hNone).seq s)

omit hKnown in
theorem builtOf_hashStatements (s : Span) {empty : Node} (hEmpty : ∀ x, ¬ empty.HasTemp x)
    (entries : List (HashEntry Node)) :
    AllBuiltOf (· = t) (entries.flatMap fun e => [e.key, e.value])
      (Pending.hashStatements s empty t entries) := by
  have hTemp : ∀ s : Span, BuiltOf (· = t) [] (.temp s t) := fun s => builtOf_temp s rfl
  have hSave : BuiltOf (· = t) [] (.assign s (.temp s t) empty) :=
    builtOf_save (builtOf_new fun x hx => (hEmpty x hx).elim) rfl
  have hEntry : ∀ e : HashEntry Node, BuiltOf (· = t) [e.key, e.value]
      (.send (e.key.span.merge e.value.span) (.temp (e.key.span.merge e.value.span) t) .indexSet
        [e.key, e.value]) := fun e =>
    builtOf_send _ _ (.cons (hTemp _) (.refl _))
  have hAll := ((AllBuiltOf.cons hSave .nil).append (.flatMap hEntry entries)).append
    (.cons (hTemp s) .nil)
  simpa [Pending.hashStatements] using hAll

omit hKnown in
theorem savesIn_hashStatements (s : Span) {empty : Node} (hEmpty : ¬ empty.HasTemp t)
    {entries : List (HashEntry Node)}
    (hEntries : ∀ m ∈ entries.flatMap fun e => [e.key, e.value], ¬ m.HasTemp t) :
    SavesIn t (Pending.hashStatements s empty t entries) := by
  have hTemp : ∀ s : Span, (Node.temp s t).OnlyReads t := fun s => onlyReads_atom s _
  rw [Pending.hashStatements, List.append_assoc, List.singleton_append, ← List.nil_append (_ :: _)]
  refine .split nofun hEmpty (List.forall_mem_append.mpr
    ⟨fun m hm => ?_, List.forall_mem_singleton.mpr (hTemp s)⟩)
  obtain ⟨e, he, rfl⟩ := List.mem_map.mp hm
  refine onlyReads_send _ _ (hTemp _) fun m hm => onlyReads_of_not_hasTemp (hEntries m ?_)
  exact List.mem_flatMap.mpr ⟨e, he, hm⟩

theorem leadsTo_hash {s : Span} {entries : List (HashEntry Node)} {types : Option HashTypes}
    (h : ∀ m ∈ (Node.hash s entries types).parts, Shares answer m)
    (hTidy : (Node.hash s entries types).SourceTidy known p) :
    (Node.hash s entries types).code.LeadsTo answer p fun q o => p.Grown known q [o.node] := by
  have hEntry : ∀ e ∈ entries, e.key ∈ (Node.hash s entries types).parts ∧
      e.value ∈ (Node.hash s entries types).parts := fun e he =>
    ⟨List.mem_flatMap.mpr ⟨e, he, by simp⟩, List.mem_flatMap.mpr ⟨e, he, by simp⟩⟩
  refine (leadsTo_entryNodes hKnown (grown_nil p)
    (fun e he => ⟨h _ (hEntry e he).1, h _ (hEntry e he).2⟩)
    fun e he => ⟨hTidy.parts _ (hEntry e he).1, hTidy.parts _ (hEntry e he).2⟩).bind
      fun es p₁ _ hes => ?_
  refine (leadsTo_genericType _ _).bind fun id p₂ hLater hTemps => ?_
  have hes := hes.quiet hKnown hLater hTemps
  have hEmpty : ∀ x, ¬ (Node.send s (.atom s (.generic id)) .newName []).HasTemp x := fun x =>
    not_hasTemp_of_parts rfl (List.forall_mem_singleton.mpr (not_hasTemp_of_parts rfl nofun))
  dsimp only
  split
  · rename_i hNone
    rw [List.isEmpty_iff.mp hNone] at hes
    exact leadsTo_pure (hes.new hEmpty)
  · refine leadsTo_freshTemp.bind ?_
    rintro _ _ - ⟨rfl, rfl⟩
    exact leadsTo_pure (hes.save hKnown ((builtOf_hashStatements s hEmpty es).sequenceOf.seq s)
      fun hNone => (savesIn_hashStatements s (hEmpty _) hNone).seq s)

end

end Code

open Code

/-- One call of the normalizer shares out what it allocates, if calls on lighter trees do and the
answers to requires do. -/
theorem Node.leadsTo_code {n : Node} (hKnown : ∀ t, known t → p.Old t)
    (hAnswer : ∀ s path p, (Code.require s path).LeadsTo answer p
      fun q m => p.Grown (fun _ => False) q [m])
    (hLighter : ∀ m : Node, m.weight < n.weight → Shares answer m)
    (hTidy : n.SourceTidy known p) :
    n.code.LeadsTo answer p fun q o => p.Grown known q [o.node] := by
  have hParts : ∀ m ∈ n.parts, Shares answer m := fun m hm => hLighter m (weight_lt_of_mem_parts hm)
  have hMeans : ∀ m, n.Means m → Shares answer m := fun m hm => hLighter m hm.weight_lt
  cases n with
  | atom s a =>
    refine leadsTo_pure ⟨.refl p, ?_⟩
    rw [tempsTo_of_same rfl]
    exact ⟨List.forall_mem_singleton.mpr (hTidy.mono (fun _ => .inr) fun _ => .inr),
      List.forall_mem_nil _⟩
  | var s v =>
    refine (leadsTo_useVar s v).bind ?_
    rintro v' _ - rfl
    exact leadsTo_pure ((grown_nil _).new fun _ =>
      not_hasTemp_of_parts rfl (List.forall_mem_nil _))
  | seq s stmts =>
    refine (leadsTo_statements hKnown (grown_nil p) s hParts hTidy.parts).bind fun r q _ hr => ?_
    have hSeq : p.Grown known q ([.seq s r.1] ++ []) := hr
    exact leadsTo_pure (hSeq.replace ((sequenceOf_statements (.seq s r.1)).ofStatements s))
  | cond s form test body other =>
    have hTest := hParts test (.head _)
    have hTestIn : test.SourceTidy known p := hTidy.parts test (.head _)
    have hBody : ∀ m, body = some m → m ∈ (cond s form test body other).parts := by
      rintro m rfl
      simp
    have hOther : ∀ m, other = some m → m ∈ (cond s form test body other).parts := by
      rintro m rfl
      simp
    cases form with
    | whenTrue =>
      exact leadsTo_ifElse hKnown (grown_nil p) hTest (fun m hm => hParts m (hBody m hm))
        (fun m hm => hParts m (hOther m hm)) hTestIn (fun m hm => hTidy.parts m (hBody m hm))
        fun m hm => hTidy.parts m (hOther m hm)
    | whenFalse =>
      exact leadsTo_ifElse hKnown (grown_nil p) hTest (fun m hm => hParts m (hOther m hm))
        (fun m hm => hParts m (hBody m hm)) hTestIn (fun m hm => hTidy.parts m (hOther m hm))
        fun m hm => hTidy.parts m (hBody m hm)
  | loop s test body =>
    exact leadsTo_loop hKnown (grown_nil p) (hParts test (.head _))
      (fun m hm => hParts m (by simp [hm])) (hTidy.parts test (.head _))
      fun m hm => hTidy.parts m (by simp [hm])
  | choose s subject whens other =>
    refine leadsTo_choose hKnown (hParts subject (.head _)) (fun t => hMeans _ (.choose t))
      (fun t hSaves => hLighter _ ?_) hTidy
    refine Nat.lt_trans (weight_lt_of_mem_parts ?_) (Means.choose t).weight_lt
    rw [chooseAsChain, if_neg (by simp [hSaves])]
    exact .tail _ (.head _)
  | logic s op left right =>
    exact leadsTo_logic hKnown (hParts left (.head _)) (hParts right (.tail _ (.head _)))
      (fun t => hMeans _ (.logic t)) hTidy
  | jump s kind value =>
    refine (leadsTo_optionNode hKnown (grown_nil p) (fun m hm => hParts m (by simp [hm]))
      fun m hm => hTidy.parts m (by simp [hm])).bind fun _ _ _ hValue => leadsTo_pure ?_
    exact Grown.of_parts hValue rfl rfl
  | assign s target value =>
    exact leadsTo_assign hKnown (hParts target (by simp)) (hParts value (by simp)) hTidy
  | multi s targets values =>
    exact leadsTo_multi hKnown (fun m hm => hParts m (List.mem_append_left _ hm))
      (fun m hm => hParts m (List.mem_append_right _ hm)) hTidy
  | call s receiver name args block => exact leadsTo_call hKnown hParts hTidy
  | isA s subject type =>
    have hSubject : subject ∈ (Node.isA s subject type).parts := by simp
    exact ((hParts subject hSubject).node hKnown (grown_nil p) (hTidy.parts subject hSubject)).bind
      fun _ _ _ hm => leadsTo_pure (Grown.of_parts hm rfl rfl)
  | define s kind name params body =>
    exact leadsTo_define hKnown (fun m hm => hParts m (by simp [hm])) hMeans hTidy
  | interp s pieces => exact leadsTo_interp hKnown hParts hTidy
  | range s first last exclusive =>
    exact leadsTo_range hKnown (hParts first (by simp)) (hParts last (by simp)) hTidy
  | regex s text =>
    refine (leadsTo_regexConstant text s).bind fun name q hLater hTemps => leadsTo_pure ?_
    exact ((grown_nil p).quiet hKnown hLater hTemps).new fun _ =>
      not_hasTemp_of_parts rfl (List.forall_mem_nil _)
  | array s elements type => exact leadsTo_array hKnown hParts hTidy
  | hash s entries types => exact leadsTo_hash hKnown hParts hTidy
  | require s path =>
    exact (hAnswer s path p).bind fun m q _ hm => leadsTo_pure (hm.mono fun _ => False.elim)

/-- The normalizer shares out what it allocates, for every tree. -/
theorem Node.shares (hAnswer : ∀ s path p, (Code.require s path).LeadsTo answer p
    fun q m => p.Grown (fun _ => False) q [m]) (n : Node) : Shares answer n := by
  induction hWeight : n.weight using Nat.strongRecOn generalizing n with
  | _ w ih =>
    subst hWeight
    exact fun known p hKnown hTidy =>
      leadsTo_of_code (leadsTo_code hKnown hAnswer (fun m hm => ih _ hm m rfl) hTidy)

/-! ## Requires -/

theorem Program.later_of_resolve {requested : String} {requestedFrom : Option SourcePath}
    {found : Option RequiredFile} (hFiles : p.TidyFiles)
    (h : p.resolve requested requestedFrom = (.ok found, q)) :
    p.Later q ∧ p.tempsTo q = [] ∧ ∀ f, found = some f → f.root.AllOwn q := by
  have hResolves := p.resolves requested requestedFrom
  rw [h] at hResolves
  cases hResolves with
  | loaded => exact ⟨.refl _, tempsTo_of_same rfl, nofun⟩
  | found _ hContent hLoad =>
    obtain ⟨hNames, hOwn⟩ := hFiles _ _ _ _ _ hContent (List.prefix_refl _) hLoad
    refine ⟨later_of_same rfl rfl hNames, tempsTo_of_same rfl, ?_⟩
    rintro _ ⟨⟩
    exact hOwn

theorem ensures_resolveRequire (hFiles : p.TidyFiles) (file : Option SourcePath) (path : Symbol)
    (scope : Scope) : (resolveRequire file path).Ensures ⟨p, scope⟩ True fun found st =>
      p.Later st.program ∧ p.tempsTo st.program = [] ∧
        ∀ f, found = some f → f.root.AllOwn st.program := by
  unfold Norm.Ensures
  rw [run_resolveRequire]
  cases hResolve : p.resolve (p.names.text path) file with
  | mk result q =>
    cases result with
    | error e => trivial
    | ok found => exact later_of_resolve hFiles hResolve

theorem Program.grown_nop (s : Span) (hLater : p.Later q) (hTemps : p.tempsTo q = []) :
    p.Grown (fun _ => False) q [.nop s] :=
  ((grown_nil p).quiet nofun hLater hTemps).new fun _ => not_hasTemp_of_parts rfl nofun

theorem leadsTo_answerRequire (depth : Nat) (file : Option SourcePath) (s : Span) (path : Symbol)
    (p : Program) : (Code.require s path).LeadsTo (answerRequire depth file) p
      fun q m => p.Grown (fun _ => False) q [m] := by
  induction depth generalizing file s path p with
  | zero =>
    exact fun hFiles scope => (ensures_resolveRequire hFiles file path scope).bind
      fun _ st h => Norm.ensures_pure ⟨h.1, grown_nop s h.1 h.2.1⟩
  | succ depth ih =>
    refine fun hFiles scope => (ensures_resolveRequire hFiles file path scope).bind ?_
    rintro (_ | found) st ⟨hLater, hTemps, hRoot⟩
    · exact Norm.ensures_pure ⟨hLater, grown_nop s hLater hTemps⟩
    · have hShares := Node.shares (ih (some (.ofLocation found.file))) found.root
      have hOwn := hRoot found rfl
      have hNone : ∀ t, False → st.program.Old t := fun _ => False.elim
      have hNode : (Code.apart [] found.root).LeadsTo _ st.program _ :=
        (hShares.node hNone (grown_nil st.program) hOwn.tidy).apart []
      refine Norm.Ensures.bind (hNode (hFiles.later hLater) st.scope) fun m st' hm => ?_
      have hFinish : st'.program.Later (st'.program.finish found.file) :=
        later_of_same rfl rfl (List.prefix_refl _)
      have hGrown := ((grown_nil p).quiet nofun hLater hTemps).append hm.2 nofun
      exact ⟨(hLater.trans hm.1).trans hFinish,
        hGrown.quiet nofun hFinish (tempsTo_of_same rfl)⟩

end CoreTree
