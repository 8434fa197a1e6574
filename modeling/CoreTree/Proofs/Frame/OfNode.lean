import CoreTree.Normal.OfNode
import CoreTree.Proofs.Frame.Pending

/-! # Trees whose normalization spares a variable

A tree that spares a variable keeps to it when it is normalized: the variable has the same
versions before and after, and no bridge and no copy in the normalized tree assigns it.
-/
namespace CoreTree
set_option autoImplicit false

variable {files : Loader} {x : Symbol}

namespace Pending

/-! ## Sugar -/

theorem spares_nil (s : Span) : (nil s).Spares files x := spares_atom s _

theorem spares_temp (s : Span) (t : Symbol) : (temp s t).Spares files x := spares_atom s _

theorem spares_save (t : Symbol) {p : Pending} (h : p.Spares files x) :
    (save t p).Spares files x :=
  spares_assign _ (targetSpares_atom _ _) h

theorem spares_logic (s : Span) (op : LogicOp) {left right : Pending}
    (hLeft : left.Spares files x) (hRight : right.Spares files x) :
    (logic s op left right).Spares files x := by
  cases op with
  | and =>
    unfold Spares logic and
    dsimp only
    split
    · exact spares_cond s _ hLeft (optionSpares_some hRight) (optionSpares_some hLeft)
    · exact Norm.spares_freshTemp.bind fun t _ => spares_cond s _ (spares_save t hLeft)
        (optionSpares_some hRight) (optionSpares_some (spares_temp _ t))
  | or =>
    unfold Spares logic or
    dsimp only
    split
    · exact spares_cond s _ hLeft (optionSpares_some hLeft) (optionSpares_some hRight)
    · exact Norm.spares_freshTemp.bind fun t _ => spares_cond s _ (spares_save t hLeft)
        (optionSpares_some (spares_temp _ t)) (optionSpares_some hRight)

theorem spares_clauseTest (s : Span) {scrutinee : Pending} {patterns : List Pending}
    (hScrutinee : scrutinee.Spares files x) (hPatterns : ListSpares patterns files x) :
    (clauseTest s scrutinee patterns).Spares files x := by
  have hMatch : ∀ p ∈ patterns, (matchTest scrutinee p).Spares files x := fun p hp =>
    spares_call _ _ (optionSpares_some (hPatterns p hp)) (by simpa [ListSpares]) (by simp)
  cases patterns with
  | nil => exact spares_atom s _
  | cons pattern patterns =>
    have hOr : ∀ acc : Pending, acc.Spares files x → ∀ test ∈ patterns.map (matchTest scrutinee),
        (or (acc.span.merge test.span) acc test).Spares files x := by
      intro acc hAcc test hTest
      obtain ⟨p, hp, rfl⟩ := List.mem_map.mp hTest
      exact spares_logic _ .or hAcc (hMatch p (.tail _ hp))
    unfold clauseTest
    exact List.foldlRecOn (motive := fun p : Pending => p.Spares files x) _ _
      (hMatch pattern (.head _)) hOr

def WhensSpare (whens : List (When Pending)) (files : Loader) (x : Symbol) : Prop :=
  ∀ w ∈ whens, ListSpares w.patterns files x ∧ OptionSpares w.body files x

theorem spares_clauseChain (s : Span) {scrutinee : Pending} {whens : List (When Pending)}
    {other : Option Pending} (hScrutinee : scrutinee.Spares files x)
    (hWhens : WhensSpare whens files x) (hOther : OptionSpares other files x) :
    (clauseChain s scrutinee whens other).Spares files x := by
  refine clauseChain_of_forall s (spares_nil s) hOther fun w hw rest hRest => ?_
  obtain ⟨hPatterns, hBody⟩ := hWhens w hw
  exact spares_cond s _ (spares_clauseTest s hScrutinee hPatterns) hBody hRest

theorem spares_choose (s : Span) {subject : Pending} {whens : List (When Pending)}
    {other : Option Pending} (hSubject : subject.Spares files x)
    (hWhens : WhensSpare whens files x) (hOther : OptionSpares other files x) :
    (choose s subject whens other).Spares files x := by
  unfold Spares choose
  dsimp only
  split
  · exact spares_clauseChain s hSubject hWhens hOther
  · refine Norm.spares_freshTemp.bind fun t _ => spares_seq s ?_
    have hChain := spares_clauseChain s (spares_temp subject.span t) hWhens hOther
    simpa [ListSpares] using And.intro (spares_save t hSubject) hChain

theorem listSpares_forwarders (s : Span) (kind : DefKind) (name : Symbol) (given : List Symbol)
    {params : List (Param Pending)}
    (h : ∀ p ∈ forwarders s kind name given params, p.run.KeepsLoader) :
    ListSpares (forwarders s kind name given params) files x := by
  have hEach : ∀ p ∈ forwarders s kind name given params, p.run.KeepsLoader → p.Spares files x :=
    forall_forwarders s kind name given fun given _ _ => spares_definePlain s kind name given _
  exact fun p hp => hEach p hp (h p hp)

theorem spares_define (s : Span) (kind : DefKind) (name : Symbol) {params : List (Param Pending)}
    {body : Option Pending} {answer : RequireHandler} (hParams : ParamsMadeOf answer params)
    (hBody : OptionMadeOf answer body) (hAnswer : ∀ s path, (answer s path).KeepsLoader) :
    (define s kind name params body).Spares files x := by
  have hWhole : (definePlain s kind name (params.map (·.name)) body).Spares files x :=
    spares_definePlain s kind name _ body
      ((madeOf_definePlain s kind name _ hBody).keepsLoader hAnswer)
  unfold Spares define
  dsimp only
  split
  · apply spares_seq s
    intro p hp
    rcases List.mem_append.mp hp with hp | hp
    · refine listSpares_forwarders s kind name _ (fun q hq => ?_) p hp
      refine (listMadeOf_forwarders s kind name _ (fun d hd => ?_) q hq).keepsLoader hAnswer
      exact hParams d (List.dropWhile_subset _ hd)
    · obtain rfl := List.mem_singleton.mp hp
      exact hWhole
  · exact hWhole

/-! ## Literals -/

theorem sparesAll_send (s : Span) {receiver : Node} (name : Symbol) {args : List Node}
    (hReceiver : receiver.SparesAll x) (hArgs : ∀ n ∈ args, n.SparesAll x) :
    (Node.send s receiver name args).SparesAll x :=
  Node.spares_call.mpr ⟨by simpa using hReceiver, hArgs, by simp⟩

theorem spares_interp (s : Span) {pieces : List Pending} (h : ListSpares pieces files x) :
    (interp s pieces).Spares files x := by
  refine Norm.Spares.bind (spares_nodes h) fun ns hns => Norm.spares_pure ?_
  refine sparesAll_send s _ (List.foldlRecOn ns _ ?_ ?_) nofun
  · exact sparesAll_send s _ (Node.spares_atom _) nofun
  · exact fun acc hAcc piece hPiece => sparesAll_send s _ hAcc (by simpa using hns piece hPiece)

theorem spares_range (s : Span) {first last : Pending} (exclusive : Bool)
    (hFirst : first.Spares files x) (hLast : last.Spares files x) :
    (range s first last exclusive).Spares files x := by
  refine Norm.Spares.bind hFirst.node fun n hn => hLast.node.bind fun m hm => Norm.spares_pure ?_
  refine sparesAll_send s _ (Node.spares_atom _) ?_
  simp [hn, hm, Node.bool]

theorem spares_regex (s : Span) (text : Symbol) : (regex s text).Spares files x :=
  (Norm.spares_onProgram fun p => p.allocates_regexConstant text s).bind fun _ _ =>
    Norm.spares_pure (Node.spares_atom _)

theorem sparesAll_arrayStatements (s : Span) {type : Node} (t : Symbol) {elements : List Node}
    (hType : type.SparesAll x) (hElements : ∀ n ∈ elements, n.SparesAll x) :
    ∀ n ∈ arrayStatements s type t elements, n.SparesAll x := by
  have hTemp : ∀ s : Span, (Node.temp s t).SparesAll x := fun s => Node.spares_atom _
  have hInt : ∀ (s : Span) (n : Int), ∀ m ∈ [Node.int s n], m.SparesAll x := by
    intro s n m hm
    obtain rfl := List.mem_singleton.mp hm
    exact Node.spares_atom _
  refine List.forall_mem_append.mpr ⟨List.forall_mem_append.mpr ⟨?_, fun n hn => ?_⟩, ?_⟩
  · refine List.forall_mem_cons.mpr ⟨?_, List.forall_mem_singleton.mpr ?_⟩
    · exact Node.spares_assign.mpr ⟨id, hTemp s, sparesAll_send s _ hType (hInt _ _)⟩
    · exact sparesAll_send s _ (hTemp s) (hInt _ _)
  · obtain ⟨i, hi, rfl⟩ := List.mem_mapIdx.mp hn
    refine sparesAll_send _ _ (sparesAll_send _ _ (hTemp _) nofun) ?_
    exact List.forall_mem_cons.mpr
      ⟨Node.spares_atom _, by simpa using hElements _ (List.getElem_mem hi)⟩
  · exact List.forall_mem_singleton.mpr (hTemp s)

theorem spares_array (s : Span) {elements : List Pending} (type : Option ConstPath)
    (h : ListSpares elements files x) : (array s elements type).Spares files x := by
  apply Norm.Spares.bind (spares_nodes h)
  intro ns hns
  apply (Norm.spares_onProgram fun p => p.allocates_genericType _ _).bind
  intro id _
  have hType : (Node.atom s (.generic id)).SparesAll x := Node.spares_atom _
  split
  · exact Norm.spares_pure (sparesAll_send s _ hType (by simp [Node.int]))
  · refine Norm.spares_freshTemp.bind fun t _ => Norm.spares_pure ?_
    exact Node.spares_seq.mpr (sparesAll_arrayStatements s t hType hns)

def EntriesSpare (entries : List (HashEntry Pending)) (files : Loader) (x : Symbol) : Prop :=
  ∀ e ∈ entries, e.key.Spares files x ∧ e.value.Spares files x

theorem spares_entryNodes {entries : List (HashEntry Pending)}
    (h : EntriesSpare entries files x) :
    (entryNodes entries).Spares files x fun es =>
      ∀ e ∈ es, e.key.SparesAll x ∧ e.value.SparesAll x := by
  induction entries with
  | nil => exact Norm.spares_pure nofun
  | cons e entries ih =>
    obtain ⟨hKey, hValue⟩ := h e (.head _)
    refine hKey.node.bind fun key hKey' => hValue.node.bind fun value hValue' => ?_
    refine (ih fun e' he' => h e' (.tail _ he')).bind fun es hes => Norm.spares_pure ?_
    exact List.forall_mem_cons.mpr ⟨⟨hKey', hValue'⟩, hes⟩

theorem spares_hash (s : Span) {entries : List (HashEntry Pending)} (types : Option HashTypes)
    (h : EntriesSpare entries files x) : (hash s entries types).Spares files x := by
  apply Norm.Spares.bind (spares_entryNodes h)
  intro es hes
  apply (Norm.spares_onProgram fun p => p.allocates_genericType _ _).bind
  intro id _
  have hEmpty : (Node.send s (.atom s (.generic id)) .newName []).SparesAll x :=
    sparesAll_send s _ (Node.spares_atom _) nofun
  split
  · exact Norm.spares_pure hEmpty
  · refine Norm.spares_freshTemp.bind fun t _ => Norm.spares_pure (Node.spares_seq.mpr ?_)
    have hTemp : ∀ s : Span, (Node.temp s t).SparesAll x := fun s => Node.spares_atom _
    refine List.forall_mem_append.mpr ⟨List.forall_mem_append.mpr ⟨?_, fun n hn => ?_⟩, ?_⟩
    · exact List.forall_mem_singleton.mpr (Node.spares_assign.mpr ⟨nofun, hTemp s, hEmpty⟩)
    · obtain ⟨e, he, rfl⟩ := List.mem_map.mp hn
      exact sparesAll_send _ _ (hTemp _) (by simpa using hes e he)
    · exact List.forall_mem_singleton.mpr (hTemp s)

end Pending

/-! ## Trees -/

/-- The answers to the requires that are allowed spare the variable, and no answer adds a file
that could be loaded. -/
structure AnswersSpare (answer : RequireHandler) (allowed : Span → Symbol → Prop) (files : Loader)
    (x : Symbol) : Prop where
  keepsLoader : ∀ s path, (answer s path).KeepsLoader
  spares : ∀ s path, allowed s path → (answer s path).Spares files x (Node.SparesAll x)

variable {answer : RequireHandler} {allowed : Span → Symbol → Prop}

theorem targetSpares_pending {n : Node} (h : ¬ n.MayBe x) :
    (n.pending answer).TargetSpares files x := by
  cases n with
  | atom s a =>
    rw [Node.pending]
    exact Pending.targetSpares_atom s a
  | var s v =>
    rw [Node.pending]
    exact Pending.targetSpares_var s h
  | _ => exact absurd trivial h

theorem targetsSpare_pendingList {ns : List Node} (h : ∀ n ∈ ns, ¬ n.MayBe x) :
    ∀ p ∈ pendingList answer ns, p.TargetSpares files x :=
  forall_pendingList fun n hn => targetSpares_pending (h n hn)

mutual
theorem Node.spares_pending (hAnswer : AnswersSpare answer allowed files x) :
    ∀ n : Node, n.Spares allowed x → (n.pending answer).Spares files x
  | .atom s a, _ => by
    rw [Node.pending]
    exact Pending.spares_atom s a
  | .var s v, h => by
    rw [Node.pending]
    exact Pending.spares_var s (Node.spares_var.mp h)
  | .seq s stmts, h => by
    rw [Node.pending]
    exact Pending.spares_seq s (listSpares_pendingList hAnswer stmts (Node.spares_seq.mp h))
  | .cond s form test body other, h => by
    obtain ⟨hTest, hBody, hOther⟩ := Node.spares_cond.mp h
    rw [Node.pending]
    exact Pending.spares_cond s form (Node.spares_pending hAnswer test hTest)
      (optionSpares_pendingOption hAnswer body hBody)
      (optionSpares_pendingOption hAnswer other hOther)
  | .loop s test body, h => by
    obtain ⟨hTest, hBody⟩ := Node.spares_loop.mp h
    rw [Node.pending]
    exact Pending.spares_loop s (Node.spares_pending hAnswer test hTest)
      (optionSpares_pendingOption hAnswer body hBody)
  | .choose s subject whens other, h => by
    obtain ⟨hSubject, hWhens, hOther⟩ := Node.spares_choose.mp h
    rw [Node.pending]
    exact Pending.spares_choose s (Node.spares_pending hAnswer subject hSubject)
      (whensSpare_pendingWhens hAnswer whens hWhens)
      (optionSpares_pendingOption hAnswer other hOther)
  | .logic s op left right, h => by
    obtain ⟨hLeft, hRight⟩ := Node.spares_logic.mp h
    rw [Node.pending]
    exact Pending.spares_logic s op (Node.spares_pending hAnswer left hLeft)
      (Node.spares_pending hAnswer right hRight)
  | .jump s kind value, h => by
    rw [Node.pending]
    exact Pending.spares_jump s kind
      (optionSpares_pendingOption hAnswer value (Node.spares_jump.mp h))
  | .assign s target value, h => by
    obtain ⟨hTarget, -, hValue⟩ := Node.spares_assign.mp h
    rw [Node.pending]
    exact Pending.spares_assign s (targetSpares_pending hTarget)
      (Node.spares_pending hAnswer value hValue)
  | .multi s targets values, h => by
    obtain ⟨hTargets, -, hValues⟩ := Node.spares_multi.mp h
    rw [Node.pending]
    exact Pending.spares_multi s (targetsSpare_pendingList hTargets)
      (listSpares_pendingList hAnswer values hValues)
  | .call s receiver name args none, h => by
    obtain ⟨hReceiver, hArgs, -⟩ := Node.spares_call.mp h
    rw [Node.pending]
    exact Pending.spares_call s name (optionSpares_pendingOption hAnswer receiver hReceiver)
      (listSpares_pendingList hAnswer args hArgs) (by simp)
  | .call s receiver name args (some ⟨params, body⟩), h => by
    obtain ⟨hReceiver, hArgs, hBlock⟩ := Node.spares_call.mp h
    have hBody := optionSpares_pendingOption hAnswer body (hBlock ⟨params, body⟩ rfl)
    rw [Node.pending]
    exact Pending.spares_call s name (optionSpares_pendingOption hAnswer receiver hReceiver)
      (listSpares_pendingList hAnswer args hArgs) (by rintro _ ⟨⟩; exact hBody)
  | .isA s subject type, h => by
    rw [Node.pending]
    exact Pending.spares_isA s (Node.spares_pending hAnswer subject (Node.spares_isA.mp h)) type
  | .define s kind name params body, _ => by
    rw [Node.pending]
    have hMade := Pending.inherited_madeOf answer
    exact Pending.spares_define s kind name (inherits_pendingParams hMade params)
      (inherits_pendingOption hMade body) hAnswer.keepsLoader
  | .interp s pieces, h => by
    rw [Node.pending]
    exact Pending.spares_interp s (listSpares_pendingList hAnswer pieces (Node.spares_interp.mp h))
  | .range s first last exclusive, h => by
    obtain ⟨hFirst, hLast⟩ := Node.spares_range.mp h
    rw [Node.pending]
    exact Pending.spares_range s exclusive (Node.spares_pending hAnswer first hFirst)
      (Node.spares_pending hAnswer last hLast)
  | .regex s text, _ => by
    rw [Node.pending]
    exact Pending.spares_regex s text
  | .array s elements type, h => by
    rw [Node.pending]
    exact Pending.spares_array s type
      (listSpares_pendingList hAnswer elements (Node.spares_array.mp h))
  | .hash s entries types, h => by
    rw [Node.pending]
    exact Pending.spares_hash s types
      (entriesSpare_pendingEntries hAnswer entries (Node.spares_hash.mp h))
  | .require s path, h => by
    rw [Node.pending]
    exact (hAnswer.spares s path (Node.spares_require.mp h)).bind fun _ hn => Norm.spares_pure hn

theorem optionSpares_pendingOption (hAnswer : AnswersSpare answer allowed files x) :
    ∀ n : Option Node, (∀ m ∈ n, m.Spares allowed x) →
      Pending.OptionSpares (pendingOption answer n) files x
  | none, _ => by
    rw [pendingOption]
    exact Pending.optionSpares_none
  | some n, h => by
    rw [pendingOption]
    exact Pending.optionSpares_some (Node.spares_pending hAnswer n (h n rfl))

theorem listSpares_pendingList (hAnswer : AnswersSpare answer allowed files x) :
    ∀ ns : List Node, (∀ n ∈ ns, n.Spares allowed x) →
      Pending.ListSpares (pendingList answer ns) files x
  | [], _ => by
    rw [pendingList]
    exact nofun
  | n :: ns, h => by
    rw [pendingList]
    exact List.forall_mem_cons.mpr ⟨Node.spares_pending hAnswer n (h n (.head _)),
      listSpares_pendingList hAnswer ns fun m hm => h m (.tail _ hm)⟩

theorem whensSpare_pendingWhens (hAnswer : AnswersSpare answer allowed files x) :
    ∀ ws : List (When Node),
      (∀ w ∈ ws, (∀ n ∈ w.patterns, n.Spares allowed x) ∧ ∀ n ∈ w.body, n.Spares allowed x) →
      Pending.WhensSpare (pendingWhens answer ws) files x
  | [], _ => by
    rw [pendingWhens]
    exact nofun
  | ⟨patterns, body⟩ :: ws, h => by
    obtain ⟨hPatterns, hBody⟩ := h ⟨patterns, body⟩ (.head _)
    rw [pendingWhens]
    exact List.forall_mem_cons.mpr ⟨⟨listSpares_pendingList hAnswer patterns hPatterns,
      optionSpares_pendingOption hAnswer body hBody⟩,
      whensSpare_pendingWhens hAnswer ws fun w hw => h w (.tail _ hw)⟩

theorem entriesSpare_pendingEntries (hAnswer : AnswersSpare answer allowed files x) :
    ∀ es : List (HashEntry Node),
      (∀ e ∈ es, e.key.Spares allowed x ∧ e.value.Spares allowed x) →
      Pending.EntriesSpare (pendingEntries answer es) files x
  | [], _ => by
    rw [pendingEntries]
    exact nofun
  | ⟨key, value⟩ :: es, h => by
    obtain ⟨hKey, hValue⟩ := h ⟨key, value⟩ (.head _)
    rw [pendingEntries]
    exact List.forall_mem_cons.mpr ⟨⟨Node.spares_pending hAnswer key hKey,
      Node.spares_pending hAnswer value hValue⟩,
      entriesSpare_pendingEntries hAnswer es fun e he => h e (.tail _ he)⟩
end

end CoreTree
