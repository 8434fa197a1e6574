import CoreTree.Normal.Sugar
import CoreTree.Proofs.CoreForm.Pending

/-! # Sugar that yields core form

`and`, `or`, `case` and default values are constructs of the core vocabulary; interpolation and
the literals are calls. A literal without a declared type registers one that mentions its
elements, and these are in core form by then.
-/
namespace CoreTree
set_option autoImplicit false

theorem TypePool.mem_intern {p : TypePool} {t t' : GenericType}
    (h : t' ∈ (p.intern t).2.types) : t' = t ∨ t' ∈ p.types := by
  unfold intern at h
  split at h
  · exact .inr h
  · rcases List.mem_append.mp h with h | h
    · exact .inr h
    · exact .inl (List.mem_singleton.mp h)

namespace Norm

theorem yields_genericType (base : Symbol) {args : List TypeArg}
    (h : ∀ e ∈ (GenericType.mk base args).exprs, e.AllCore) :
    (onProgram (·.genericType base args)).Yields fun _ => True := by
  refine yields_onProgram fun p hTypes t ht => ?_
  obtain rfl | ht := TypePool.mem_intern ht
  · exact h
  · exact hTypes t ht

theorem yields_regexConstant (text : Symbol) (s : Span) :
    (onProgram (·.regexConstant text s)).Yields fun _ => True := by
  refine yields_onProgram fun p hTypes => ?_
  unfold Program.regexConstant
  split <;> exact hTypes

end Norm

namespace Pending

/-! ## Sugar -/

theorem yieldsCore_nil (s : Span) : (nil s).YieldsCore := yieldsCore_atom s _

theorem yieldsCore_temp (s : Span) (t : Symbol) : (temp s t).YieldsCore := yieldsCore_atom s _

theorem yieldsCore_save (t : Symbol) {p : Pending} (h : p.YieldsCore) : (save t p).YieldsCore :=
  yieldsCore_assign _ (yieldsCore_temp _ t) h

theorem yieldsCore_and (s : Span) {left right : Pending} (hLeft : left.YieldsCore)
    (hRight : right.YieldsCore) : (and s left right).YieldsCore := by
  unfold YieldsCore and
  dsimp only
  split
  · exact yieldsCore_cond s _ hLeft (optionYieldsCore_some hRight) (optionYieldsCore_some hLeft)
  · exact Norm.yields_freshTemp.bind fun t _ => yieldsCore_cond s _ (yieldsCore_save t hLeft)
      (optionYieldsCore_some hRight) (optionYieldsCore_some (yieldsCore_temp _ t))

theorem yieldsCore_or (s : Span) {left right : Pending} (hLeft : left.YieldsCore)
    (hRight : right.YieldsCore) : (or s left right).YieldsCore := by
  unfold YieldsCore or
  dsimp only
  split
  · exact yieldsCore_cond s _ hLeft (optionYieldsCore_some hLeft) (optionYieldsCore_some hRight)
  · exact Norm.yields_freshTemp.bind fun t _ => yieldsCore_cond s _ (yieldsCore_save t hLeft)
      (optionYieldsCore_some (yieldsCore_temp _ t)) (optionYieldsCore_some hRight)

theorem yieldsCore_matchTest {scrutinee pattern : Pending} (hScrutinee : scrutinee.YieldsCore)
    (hPattern : pattern.YieldsCore) : (matchTest scrutinee pattern).YieldsCore :=
  yieldsCore_call _ _ (optionYieldsCore_some hPattern) (by simpa [ListYieldsCore]) (by simp)

theorem yieldsCore_clauseTest (s : Span) {scrutinee : Pending} {patterns : List Pending}
    (hScrutinee : scrutinee.YieldsCore) (hPatterns : ListYieldsCore patterns) :
    (clauseTest s scrutinee patterns).YieldsCore := by
  cases patterns with
  | nil => exact yieldsCore_atom s _
  | cons pattern patterns =>
    have hTests : ListYieldsCore (patterns.map (matchTest scrutinee)) := by
      intro test hTest
      obtain ⟨p, hp, rfl⟩ := List.mem_map.mp hTest
      exact yieldsCore_matchTest hScrutinee (hPatterns p (.tail _ hp))
    refine List.foldlRecOn _ _ (yieldsCore_matchTest hScrutinee (hPatterns pattern (.head _))) ?_
    exact fun acc hAcc test hTest => yieldsCore_or _ hAcc (hTests test hTest)

def WhensYieldCore (whens : List (When Pending)) : Prop :=
  ∀ w ∈ whens, ListYieldsCore w.patterns ∧ OptionYieldsCore w.body

theorem yieldsCore_clauseChain (s : Span) {scrutinee : Pending} {whens : List (When Pending)}
    {other : Option Pending} (hScrutinee : scrutinee.YieldsCore) (hWhens : WhensYieldCore whens)
    (hOther : OptionYieldsCore other) : (clauseChain s scrutinee whens other).YieldsCore := by
  refine clauseChain_of_forall s (yieldsCore_nil s) hOther fun w hw rest hRest => ?_
  obtain ⟨hPatterns, hBody⟩ := hWhens w hw
  exact yieldsCore_cond s _ (yieldsCore_clauseTest s hScrutinee hPatterns) hBody hRest

theorem yieldsCore_choose (s : Span) {subject : Pending} {whens : List (When Pending)}
    {other : Option Pending} (hSubject : subject.YieldsCore) (hWhens : WhensYieldCore whens)
    (hOther : OptionYieldsCore other) : (choose s subject whens other).YieldsCore := by
  unfold YieldsCore choose
  dsimp only
  split
  · exact yieldsCore_clauseChain s hSubject hWhens hOther
  · refine Norm.yields_freshTemp.bind fun t _ => yieldsCore_seq s ?_
    have hChain := yieldsCore_clauseChain s (yieldsCore_temp subject.span t) hWhens hOther
    simpa [ListYieldsCore] using And.intro (yieldsCore_save t hSubject) hChain

def ParamsYieldCore (params : List (Param Pending)) : Prop :=
  ∀ p ∈ params, OptionYieldsCore p.default

theorem listYieldsCore_forwarders (s : Span) (kind : DefKind) (name : Symbol) (given : List Symbol)
    {params : List (Param Pending)} (h : ParamsYieldCore params) :
    ListYieldsCore (forwarders s kind name given params) := by
  refine forall_forwarders s kind name given fun given next hNext => ?_
  have hArgs := forall_forwarded s given (fun _ => yieldsCore_var s _) (yieldsCore_nil s)
    (h next hNext)
  exact yieldsCore_definePlain s kind name given (optionYieldsCore_some
    (yieldsCore_call s name optionYieldsCore_none hArgs (by simp)))

theorem yieldsCore_define (s : Span) (kind : DefKind) (name : Symbol)
    {params : List (Param Pending)} {body : Option Pending} (hParams : ParamsYieldCore params)
    (hBody : OptionYieldsCore body) : (define s kind name params body).YieldsCore := by
  have hWhole := yieldsCore_definePlain s kind name (params.map (·.name)) hBody
  unfold YieldsCore define
  dsimp only
  split
  · apply yieldsCore_seq s
    intro p hp
    rcases List.mem_append.mp hp with hp | hp
    · refine listYieldsCore_forwarders s kind name _ (fun q hq => ?_) p hp
      exact hParams q (List.dropWhile_subset _ hq)
    · obtain rfl := List.mem_singleton.mp hp
      exact hWhole
  · exact hWhole

/-! ## Literals -/

theorem allCore_send (s : Span) {receiver : Node} (name : Symbol) {args : List Node}
    (hReceiver : receiver.AllCore) (hArgs : ∀ n ∈ args, n.AllCore) :
    (Node.send s receiver name args).AllCore :=
  Node.allCore_call.mpr ⟨by simpa using hReceiver, hArgs, by simp⟩

theorem yieldsCore_interp (s : Span) {pieces : List Pending} (h : ListYieldsCore pieces) :
    (interp s pieces).YieldsCore := by
  refine Norm.Yields.bind (yields_nodes h) fun ns hns => Norm.yields_pure ?_
  refine allCore_send s _ (List.foldlRecOn ns _ ?_ ?_) nofun
  · exact allCore_send s _ (Node.allCore_atom _) nofun
  · exact fun acc hAcc piece hPiece => allCore_send s _ hAcc (by simpa using hns piece hPiece)

theorem yieldsCore_range (s : Span) {first last : Pending} (exclusive : Bool)
    (hFirst : first.YieldsCore) (hLast : last.YieldsCore) :
    (range s first last exclusive).YieldsCore := by
  refine Norm.Yields.bind hFirst.node fun n hn => hLast.node.bind fun m hm => Norm.yields_pure ?_
  refine allCore_send s _ (Node.allCore_atom _) ?_
  simp [hn, hm, Node.bool]

theorem yieldsCore_regex (s : Span) (text : Symbol) : (regex s text).YieldsCore :=
  (Norm.yields_regexConstant text s).bind fun _ _ => Norm.yields_pure (Node.allCore_atom _)

theorem flat_arrayStatements (s : Span) {type : Node} (t : Symbol) {elements : List Node}
    (hType : type.AllCore) (hElements : ∀ n ∈ elements, n.AllCore) :
    Flat (arrayStatements s type t elements) := by
  have hTemp : ∀ s : Span, (Node.temp s t).AllCore := fun s => Node.allCore_atom _
  have hInt : ∀ (s : Span) (n : Int), ∀ m ∈ [Node.int s n], m.AllCore := by
    intro s n m hm
    obtain rfl := List.mem_singleton.mp hm
    exact Node.allCore_atom _
  refine (Flat.append (fun n hn => ?_) fun n hn => ?_).append (flat_single rfl (hTemp s))
  · rcases List.mem_cons.mp hn with rfl | hn
    · exact ⟨rfl, Node.allCore_assign.mpr ⟨hTemp s, allCore_send s _ hType (hInt _ _)⟩⟩
    · obtain rfl := List.mem_singleton.mp hn
      exact ⟨rfl, allCore_send s _ (hTemp s) (hInt _ _)⟩
  · obtain ⟨i, hi, rfl⟩ := List.mem_mapIdx.mp hn
    refine ⟨rfl, allCore_send _ _ (allCore_send _ _ (hTemp _) nofun) ?_⟩
    exact List.forall_mem_cons.mpr
      ⟨Node.allCore_atom _, by simpa using hElements _ (List.getElem_mem hi)⟩

theorem yieldsCore_array (s : Span) {elements : List Pending} (type : Option ConstPath)
    (h : ListYieldsCore elements) : (array s elements type).YieldsCore := by
  apply Norm.Yields.bind (yields_nodes h)
  intro ns hns
  apply (Norm.yields_genericType .array (GenericType.forall_exprs_array type hns)).bind
  intro id _
  have hType : (Node.atom s (.generic id)).AllCore := Node.allCore_atom _
  split
  · exact Norm.yields_pure (allCore_send s _ hType (by simp [Node.int]))
  · refine Norm.yields_freshTemp.bind fun t _ => Norm.yields_pure ?_
    refine Node.allCore_seq.mpr ⟨?_, flat_arrayStatements s t hType hns⟩
    simp only [arrayStatements, List.length_append, List.length_cons]
    omega

def EntriesYieldCore (entries : List (HashEntry Pending)) : Prop :=
  ∀ e ∈ entries, e.key.YieldsCore ∧ e.value.YieldsCore

theorem yields_entryNodes {entries : List (HashEntry Pending)} (h : EntriesYieldCore entries) :
    (entryNodes entries).Yields fun es => ∀ e ∈ es, e.key.AllCore ∧ e.value.AllCore := by
  induction entries with
  | nil => exact Norm.yields_pure nofun
  | cons e entries ih =>
    obtain ⟨hKey, hValue⟩ := h e (.head _)
    refine hKey.node.bind fun key hKey' => hValue.node.bind fun value hValue' => ?_
    refine (ih fun e' he' => h e' (.tail _ he')).bind fun es hes => Norm.yields_pure ?_
    exact List.forall_mem_cons.mpr ⟨⟨hKey', hValue'⟩, hes⟩

theorem flat_hashStatements (s : Span) {empty : Node} (t : Symbol) {entries : List (HashEntry Node)}
    (hEmpty : empty.AllCore) (hEntries : ∀ e ∈ entries, e.key.AllCore ∧ e.value.AllCore) :
    Flat (hashStatements s empty t entries) := by
  have hTemp : ∀ s : Span, (Node.temp s t).AllCore := fun s => Node.allCore_atom _
  refine (Flat.append (flat_single rfl (Node.allCore_assign.mpr ⟨hTemp s, hEmpty⟩))
    fun n hn => ?_).append (flat_single rfl (hTemp s))
  obtain ⟨e, he, rfl⟩ := List.mem_map.mp hn
  exact ⟨rfl, allCore_send _ _ (hTemp _) (by simpa using hEntries e he)⟩

theorem yieldsCore_hash (s : Span) {entries : List (HashEntry Pending)} (types : Option HashTypes)
    (h : EntriesYieldCore entries) : (hash s entries types).YieldsCore := by
  apply Norm.Yields.bind (yields_entryNodes h)
  intro es hes
  apply (Norm.yields_genericType .hash (GenericType.forall_exprs_hash types hes)).bind
  intro id _
  have hEmpty : (Node.send s (.atom s (.generic id)) .newName []).AllCore :=
    allCore_send s _ (Node.allCore_atom _) nofun
  split
  · exact Norm.yields_pure hEmpty
  · refine Norm.yields_freshTemp.bind fun t _ => Norm.yields_pure ?_
    refine Node.allCore_seq.mpr ⟨?_, flat_hashStatements s t hEmpty hes⟩
    simp only [hashStatements, List.length_append, List.length_cons]
    omega

end Pending

end CoreTree
