import CoreTree.Proofs.Renaming.Constructs
import Mathlib.Data.List.Forall2

/-! # Sugar side by side

What sugar stands for is made of the same constructs for twins, with temporaries that correspond.
Literals register what corresponds and wrap the same calls around it.
-/
namespace CoreTree
set_option autoImplicit false

namespace Pairing

variable {P : Pairing} {p p' q q' : Program} {m m' left left' right right' : Pending}
  {ms ms' : List Pending} {o o' : Option Pending} {t t' : Symbol}

theorem TwinOptions.getD (h : P.TwinOptions p p' o o') (hDefault : P.Twin p p' m m') :
    P.Twin p p' (o.getD m) (o'.getD m') := by
  cases h with
  | none => exact hDefault
  | some h => exact h

theorem TwinOptions.isNone (h : P.TwinOptions p p' o o') : o'.isNone = o.isNone := by
  cases h <;> rfl

/-! ## Logic -/

theorem twin_save (hLevel : P.Level p p') (ht : P.Same Renaming.name p p' t t')
    (h : P.Twin p p' m m') : P.Twin p p' (.save t m) (.save t' m') := by
  have hSpan : m'.span = m.span := h.head.span
  unfold Pending.save
  rw [hSpan]
  exact twin_assign m.span (twin_temp hLevel m.span ht) h

theorem twin_and (s : Span) (hLeft : P.Twin p p' left left') (hRight : P.Twin p p' right right') :
    P.Twin p p' (.and s left right) (.and s left' right') where
  head := .closed rfl trivial trivial
  run := by
    have hSpan : left'.span = left.span := hLeft.head.span
    unfold Pending.and
    dsimp only
    rw [hLeft.head.isRepeatable]
    split
    · exact (twin_cond s .whenTrue hLeft (.some hRight) (.some hLeft)).run
    · refine agrees_freshTemp.bind fun t t' q q' hq ht => ?_
      rw [hSpan]
      exact (twin_cond s .whenTrue (twin_save hq.level ht (hLeft.later hq))
        (.some (hRight.later hq)) (.some (twin_temp hq.level left.span ht))).run

theorem twin_or (s : Span) (hLeft : P.Twin p p' left left') (hRight : P.Twin p p' right right') :
    P.Twin p p' (.or s left right) (.or s left' right') where
  head := .closed rfl trivial trivial
  run := by
    have hSpan : left'.span = left.span := hLeft.head.span
    unfold Pending.or
    dsimp only
    rw [hLeft.head.isSome_plainVar?]
    split
    · exact (twin_cond s .whenTrue hLeft (.some hLeft) (.some hRight)).run
    · refine agrees_freshTemp.bind fun t t' q q' hq ht => ?_
      rw [hSpan]
      exact (twin_cond s .whenTrue (twin_save hq.level ht (hLeft.later hq))
        (.some (twin_temp hq.level left.span ht)) (.some (hRight.later hq))).run

theorem twin_logic (s : Span) (op : LogicOp) (hLeft : P.Twin p p' left left')
    (hRight : P.Twin p p' right right') :
    P.Twin p p' (.logic s op left right) (.logic s op left' right') := by
  cases op with
  | and => exact twin_and s hLeft hRight
  | or => exact twin_or s hLeft hRight

/-! ## Clauses -/

/-- The names that every table starts with. -/
theorem same_common {x : Symbol} (hx : x.id < commonNames.length) :
    P.Same Renaming.name p p' x x := fun _ hg => (hg.common hx).symm

theorem twin_matchTest (hScrutinee : P.Twin p p' m m') (h : P.Twin p p' left left') :
    P.Twin p p' (.matchTest m left) (.matchTest m' left') := by
  have hSpan : left'.span = left.span := h.head.span
  unfold Pending.matchTest
  rw [hSpan]
  exact twin_call _ (.some h) (same_common (by decide)) (.cons hScrutinee .nil) .none

theorem twin_clauseTest (hLevel : P.Level p p') (s : Span) (hScrutinee : P.Twin p p' m m')
    (h : P.TwinLists p p' ms ms') :
    P.Twin p p' (.clauseTest s m ms) (.clauseTest s m' ms') := by
  cases h with
  | nil => exact twin_atom hLevel s fun _ _ => rfl
  | cons h hRest =>
    have hTests := List.rel_map (fun _ _ hPattern => twin_matchTest hScrutinee hPattern) hRest
    refine List.rel_foldl (fun acc acc' hAcc test test' hTest => ?_)
      (twin_matchTest hScrutinee h) hTests
    have hSpans : acc'.span.merge test'.span = acc.span.merge test.span :=
      congrArg₂ Span.merge hAcc.head.span hTest.head.span
    rw [hSpans]
    exact twin_or _ hAcc hTest

structure TwinWhen (P : Pairing) (p p' : Program) (w w' : When Pending) : Prop where
  patterns : P.TwinLists p p' w.patterns w'.patterns
  body : P.TwinOptions p p' w.body w'.body

theorem TwinWhen.later {w w' : When Pending} (h : P.TwinWhen p p' w w')
    (hReaches : P.Reaches p p' q q') : P.TwinWhen q q' w w' :=
  ⟨h.patterns.later hReaches, h.body.later hReaches⟩

theorem twin_clauseChain (hLevel : P.Level p p') (s : Span) (hScrutinee : P.Twin p p' m m')
    {whens whens' : List (When Pending)} (hWhens : List.Forall₂ (P.TwinWhen p p') whens whens')
    (hOther : P.TwinOptions p p' o o') :
    P.Twin p p' (.clauseChain s m whens o) (.clauseChain s m' whens' o') := by
  have hChain : P.TwinOptions p p'
      (whens.foldr (fun w rest => some (.cond s .whenTrue (.clauseTest s m w.patterns) w.body rest))
        o)
      (whens'.foldr
        (fun w rest => some (.cond s .whenTrue (.clauseTest s m' w.patterns) w.body rest)) o') :=
    List.rel_foldr (fun w w' hw rest rest' hRest => .some (twin_cond s .whenTrue
      (twin_clauseTest hLevel s hScrutinee hw.patterns) hw.body hRest)) hOther hWhens
  exact hChain.getD (twin_nil hLevel s)

theorem twin_choose (s : Span) (h : P.Twin p p' m m') {whens whens' : List (When Pending)}
    (hWhens : List.Forall₂ (P.TwinWhen p p') whens whens') (hOther : P.TwinOptions p p' o o') :
    P.Twin p p' (.choose s m whens o) (.choose s m' whens' o') where
  head := .closed rfl trivial trivial
  run := by
    have hSpan : m'.span = m.span := h.head.span
    unfold Pending.choose
    dsimp only
    rw [h.head.isScrutinee]
    split
    · exact agrees_of_level fun q q' hq => (twin_clauseChain hq.level s (h.later hq)
        (hWhens.imp fun _ _ hw => hw.later hq) (hOther.later hq)).run
    · refine agrees_freshTemp.bind fun t t' q q' hq ht => ?_
      rw [hSpan]
      have hSave := twin_save hq.level ht (h.later hq)
      have hChain := twin_clauseChain hq.level s (twin_temp hq.level m.span ht)
        (hWhens.imp fun _ _ hw => hw.later hq) (hOther.later hq)
      exact (twin_seq s (.cons hSave (.cons hChain .nil))).run

/-! ## Default values -/

/-- Parameters are names of the tree. -/
structure TwinParam (P : Pairing) (p p' : Program) (x x' : Param Pending) : Prop where
  name : x'.name = P.rename x.name
  known : x.name ∈ P.names
  default : P.TwinOptions p p' x.default x'.default

section

variable {params params' : List (Param Pending)}

theorem TwinParam.later {x x' : Param Pending} (h : P.TwinParam p p' x x')
    (hReaches : P.Reaches p p' q q') : P.TwinParam q q' x x' :=
  ⟨h.name, h.known, h.default.later hReaches⟩

theorem TwinParam.isNone_default {x x' : Param Pending} (h : P.TwinParam p p' x x') :
    x'.default.isNone = x.default.isNone := h.default.isNone

theorem map_name_of_twins (h : List.Forall₂ (P.TwinParam p p') params params') :
    params'.map (·.name) = (params.map (·.name)).map P.rename := by
  induction h with
  | nil => rfl
  | cons h _ ih => rw [List.map_cons, List.map_cons, List.map_cons, ih, h.name]

theorem known_of_twins (h : List.Forall₂ (P.TwinParam p p') params params') :
    ∀ x ∈ params.map (·.name), x ∈ P.names := by
  induction h with
  | nil => exact nofun
  | cons h _ ih => exact List.forall_mem_cons.mpr ⟨h.known, ih⟩

theorem takeWhile_of_twins (h : List.Forall₂ (P.TwinParam p p') params params') :
    List.Forall₂ (P.TwinParam p p') (params.takeWhile (·.default.isNone))
      (params'.takeWhile (·.default.isNone)) := by
  induction h with
  | nil => exact .nil
  | cons h _ ih =>
    rw [List.takeWhile_cons, List.takeWhile_cons, h.isNone_default]
    split
    · exact .cons h ih
    · exact .nil

theorem dropWhile_of_twins (h : List.Forall₂ (P.TwinParam p p') params params') :
    List.Forall₂ (P.TwinParam p p') (params.dropWhile (·.default.isNone))
      (params'.dropWhile (·.default.isNone)) := by
  induction h with
  | nil => exact .nil
  | cons h hRest ih =>
    rw [List.dropWhile_cons, List.dropWhile_cons, h.isNone_default]
    split
    · exact ih
    · exact .cons h hRest

theorem any_of_twins (h : List.Forall₂ (P.TwinParam p p') params params') :
    params'.any (·.default.isSome) = params.any (·.default.isSome) := by
  induction h with
  | nil => rfl
  | cons h _ ih =>
    rw [List.any_cons, List.any_cons, ih, ← Option.not_isNone, ← Option.not_isNone,
      h.isNone_default]

variable {name name' : Symbol}

theorem twin_forwarders (hLevel : P.Level p p') (s : Span) (kind : DefKind)
    (hName : P.Same Renaming.name p p' name name') {given : List Symbol}
    (hGiven : ∀ x ∈ given, x ∈ P.names)
    (h : List.Forall₂ (P.TwinParam p p') params params') :
    P.TwinLists p p' (Pending.forwarders s kind name given params)
      (Pending.forwarders s kind name' (given.map P.rename) params') := by
  induction h generalizing given with
  | nil => exact .nil
  | @cons next next' rest rest' h _ ih =>
    have hReads : P.TwinLists p p' (given.map fun x => Pending.var s ⟨x, 0, false⟩)
        ((given.map P.rename).map fun x => Pending.var s ⟨x, 0, false⟩) := by
      refine List.map_map.symm ▸ List.forall₂_map_left_iff.mpr (List.forall₂_map_right_iff.mpr ?_)
      exact List.forall₂_same.mpr fun x hx => twin_var s (v := ⟨x, 0, false⟩) (hGiven x hx)
    have hArgs := List.rel_append hReads (.cons (h.default.getD (twin_nil hLevel s)) .nil)
    have hRest := @ih (given ++ [next.name]) (List.forall_mem_append.mpr
      ⟨hGiven, List.forall_mem_singleton.mpr h.known⟩)
    rw [List.map_append, List.map_singleton, ← h.name] at hRest
    exact .cons (twin_definePlain s kind hName hGiven
      (.some (twin_call s .none hName hArgs .none))) hRest

theorem twin_define (s : Span) (kind : DefKind) (hName : P.Same Renaming.name p p' name name')
    (hParams : List.Forall₂ (P.TwinParam p p') params params') (h : P.TwinOptions p p' o o') :
    P.Twin p p' (.define s kind name params o) (.define s kind name' params' o') where
  head := .closed rfl trivial trivial
  run := by
    refine agrees_of_level fun q q' hq => ?_
    have hParams := hParams.imp fun _ _ hParam => hParam.later hq
    have hName := hName.later hq
    have hWhole := twin_definePlain s kind hName (known_of_twins hParams) (h.later hq)
    rw [← map_name_of_twins hParams] at hWhole
    unfold Pending.define
    dsimp only
    rw [any_of_twins hParams]
    split
    · have hRequired := takeWhile_of_twins hParams
      have hForwarders := twin_forwarders hq.level s kind hName (known_of_twins hRequired)
        (dropWhile_of_twins hParams)
      rw [← map_name_of_twins hRequired] at hForwarders
      exact (twin_seq s (List.rel_append hForwarders (.cons hWhole .nil))).run
    · exact hWhole.run

end

end Pairing

end CoreTree
