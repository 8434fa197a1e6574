import CoreTree.Normal.OfNode
import Mathlib.Data.List.Forall2

/-! # Trees that end

Whether control leaves a tree by a jump only can be told from its jumps, sequences, conditionals
and `case`s, and normalization tells just that: for every tree, from every scope and every
program, however `require`s are answered. One lemma for each construct says so in terms of its
parts, sugar included.
-/
namespace CoreTree
set_option autoImplicit false

mutual
/-- Control never goes on behind the tree. -/
def Node.ends : Node → Bool
  | .jump .. => true
  | .seq _ stmts => listEnds stmts
  | .cond _ _ _ body other => optionEnds body && optionEnds other
  | .choose _ _ whens other => whensEnd whens && optionEnds other
  | _ => false
termination_by structural n => n

/-- A part that is absent ends nothing. -/
def optionEnds : Option Node → Bool
  | none => false
  | some n => n.ends
termination_by structural n => n

/-- One of the statements ends. -/
def listEnds : List Node → Bool
  | [] => false
  | n :: ns => n.ends || listEnds ns
termination_by structural n => n

/-- Every clause has a body that ends. -/
def whensEnd : List (When Node) → Bool
  | [] => true
  | ⟨_, body⟩ :: whens => optionEnds body && whensEnd whens
termination_by structural n => n
end

theorem listEnds_eq (ns : List Node) : listEnds ns = ns.any Node.ends := by
  induction ns with
  | nil => rfl
  | cons n ns ih => exact congrArg (n.ends || ·) ih

theorem whensEnd_eq (whens : List (When Node)) :
    whensEnd whens = whens.all fun w => optionEnds w.body := by
  induction whens with
  | nil => rfl
  | cons w whens ih => exact congrArg (optionEnds w.body && ·) ih

namespace Norm

variable {α β : Type} {act : Norm α} {P : α → Prop} {Q : β → Prop}

/-- What the action results in, if it does. -/
def Gives (P : α → Prop) (act : Norm α) : Prop := ∀ st a st', act.run st = .ok a st' → P a

theorem gives_pure {a : α} (h : P a) : (pure a : Norm α).Gives P := by
  rintro st _ _ ⟨⟩
  exact h

theorem Gives.bind {f : α → Norm β} (h : act.Gives P) (hNext : ∀ a, P a → (f a).Gives Q) :
    (act >>= f).Gives Q := by
  intro st b st' hRun
  rw [EStateM.run_bind] at hRun
  cases hAct : act.run st with
  | ok a mid =>
    rw [hAct] at hRun
    exact hNext a (h st a mid hAct) mid b st' hRun
  | error e mid =>
    rw [hAct] at hRun
    cases hRun

theorem gives_bind {f : α → Norm β} (h : ∀ a, (f a).Gives Q) : (act >>= f).Gives Q :=
  Gives.bind (P := fun _ => True) (fun _ _ _ _ => trivial) fun a _ => h a

theorem gives_ite {p : Prop} [Decidable p] {other : Norm α} (h : act.Gives P)
    (hOther : other.Gives P) : Gives P (if p then act else other) := by
  split
  · exact h
  · exact hOther

end Norm

namespace Pending

open CoreTree.Norm

/-- Whenever the tree can be normalized, it is found to end or not. -/
def Tells (ends : Bool) (p : Pending) : Prop := p.run.Gives fun o => o.ends = ends

/-- The same of a part. -/
def OptionTells (ends : Bool) (p : Option Pending) : Prop :=
  p.elim (ends = false) (Tells ends)

def ListTells (ends : List Bool) (ps : List Pending) : Prop :=
  List.Forall₂ Tells ends ps

variable {ends ends' : Bool}

theorem tells_atom (s : Span) (a : Atom) : Tells false (atom s a) := gives_pure rfl

theorem tells_var (s : Span) (v : Var) : Tells false (var s v) := gives_bind fun _ => gives_pure rfl

/-! ## Sequences and conditionals -/

theorem gives_statements {ends : List Bool} {ps : List Pending} (h : ListTells ends ps) :
    (statements ps).Gives fun r => r.2 = ends.any id := by
  induction h with
  | nil => exact gives_pure rfl
  | @cons e p ends ps hFirst _ ih =>
    refine hFirst.bind fun o ho => ?_
    cases e with
    | true =>
      rw [if_pos ho]
      exact gives_pure rfl
    | false =>
      rw [if_neg (ho.trans_ne Bool.false_ne_true)]
      exact ih.bind fun r hr => gives_pure hr

theorem tells_seq (s : Span) {ends : List Bool} {ps : List Pending} (h : ListTells ends ps) :
    Tells (ends.any id) (seq s ps) :=
  Gives.bind (gives_statements h) fun _ hr => gives_pure hr

theorem gives_runBranch (start : Scope) {part : Option Pending} (h : OptionTells ends part) :
    (runBranch start part).Gives fun e => e.any (·.ends) = ends := by
  cases part with
  | none => exact gives_pure h.symm
  | some p =>
    have hTells : p.run.Gives fun o => o.ends = ends := h
    exact gives_bind fun _ => hTells.bind fun _ ho => gives_bind fun _ => gives_pure ho

theorem tells_cond (s : Span) (form : CondForm) (test : Pending) {body other : Option Pending}
    (hBody : OptionTells ends body) (hOther : OptionTells ends' other) :
    Tells (ends && ends') (cond s form test body other) := by
  -- both forms run their branches alike
  have hBranches : ∀ {ends ends' : Bool} {onTrue onFalse : Option Pending},
      OptionTells ends onTrue → OptionTells ends' onFalse →
      Tells (ends && ends') (cond s .whenTrue test onTrue onFalse) := by
    intro ends ends' onTrue onFalse hTrue hFalse
    refine gives_bind fun _ => gives_bind fun _ => (gives_runBranch _ hTrue).bind fun e he =>
      (gives_runBranch _ hFalse).bind fun e' he' => ?_
    refine gives_bind fun _ => gives_bind fun _ => gives_bind fun _ => gives_pure ?_
    show (_ && _) = _
    rw [he, he']
  cases form with
  | whenTrue => exact hBranches hBody hOther
  | whenFalse =>
    rw [Bool.and_comm]
    exact hBranches hOther hBody

theorem tells_assign (s : Span) (target value : Pending) : Tells false (assign s target value) := by
  unfold Tells assign
  dsimp only
  split <;> exact gives_bind fun _ => gives_bind fun _ => gives_pure rfl

/-! ## Sugar -/

theorem tells_save (t : Symbol) (value : Pending) : Tells false (save t value) :=
  tells_assign value.span (temp value.span t) value

/-- One of the branches is the left side, as a read or as what was saved of it. -/
theorem tells_and (s : Span) {left : Pending} (right : Pending) (hRight : right.Tells ends)
    (hLeft : isRepeatable left.source = true → left.Tells false) :
    Tells false (and s left right) := by
  have hCond : ∀ test other, Tells false other →
      Tells false (cond s .whenTrue test (some right) (some other)) := by
    intro test other hOther
    have hRight : OptionTells ends (some right) := hRight
    have hOther : OptionTells false (some other) := hOther
    have hBoth := tells_cond s .whenTrue test hRight hOther
    rwa [Bool.and_false] at hBoth
  show Norm.Gives _ (if _ then _ else _)
  split
  · rename_i hRepeatable
    exact hCond left left (hLeft hRepeatable)
  · exact gives_bind fun t => hCond _ _ (tells_atom _ _)

theorem tells_or (s : Span) {left : Pending} (right : Pending) (hRight : right.Tells ends)
    (hLeft : left.source.plainVar?.isSome = true → left.Tells false) :
    Tells false (or s left right) := by
  have hCond : ∀ test body, Tells false body →
      Tells false (cond s .whenTrue test (some body) (some right)) := by
    intro test body hBody
    have hBody : OptionTells false (some body) := hBody
    have hRight : OptionTells ends (some right) := hRight
    exact tells_cond s .whenTrue test hBody hRight
  show Norm.Gives _ (if _ then _ else _)
  split
  · rename_i hVar
    exact hCond left left (hLeft hVar)
  · exact gives_bind fun t => hCond _ _ (tells_atom _ _)

/-- The tests of the clauses do not matter. -/
theorem tells_clauseChain (s : Span) (scrutinee : Pending) {whens : List (When Pending)}
    {ends : List Bool} (h : List.Forall₂ (fun e w => OptionTells e w.body) ends whens)
    {other : Option Pending} (hOther : OptionTells ends' other) :
    Tells (ends.all id && ends') (clauseChain s scrutinee whens other) := by
  let clause (w : When Pending) (rest : Option Pending) : Pending :=
    cond s .whenTrue (clauseTest s scrutinee w.patterns) w.body rest
  have hChain : OptionTells (ends.all id && ends')
      (whens.foldr (fun w rest => some (clause w rest)) other) := by
    induction h with
    | nil => exact hOther
    | @cons e w ends whens hBody _ ih =>
      rw [List.all_cons, Bool.and_assoc]
      exact tells_cond s .whenTrue _ hBody ih
  show Tells _ ((whens.foldr (fun w rest => some (clause w rest)) other).getD (nil s))
  generalize whens.foldr (fun w rest => some (clause w rest)) other = chain at hChain ⊢
  cases chain with
  | none =>
    rw [show (ends.all id && ends') = false from hChain]
    exact tells_atom s _
  | some p => exact hChain

theorem tells_choose (s : Span) (subject : Pending) {whens : List (When Pending)}
    {ends : List Bool} (h : List.Forall₂ (fun e w => OptionTells e w.body) ends whens)
    {other : Option Pending} (hOther : OptionTells ends' other) :
    Tells (ends.all id && ends') (choose s subject whens other) := by
  show Norm.Gives _ (if _ then _ else _)
  split
  · exact tells_clauseChain s subject h hOther
  · refine gives_bind fun t => ?_
    have hSeq := tells_seq s (.cons (tells_save t subject)
      (.cons (tells_clauseChain s (temp subject.span t) h hOther) .nil))
    rwa [List.any_cons, List.any_cons, List.any_nil, id_eq, id_eq, Bool.false_or,
      Bool.or_false] at hSeq

theorem tells_definePlain (s : Span) (kind : DefKind) (name : Symbol) (params : List Symbol)
    (body : Option Pending) : Tells false (definePlain s kind name params body) :=
  gives_bind fun _ => gives_pure rfl

theorem listTells_forwarders (s : Span) (kind : DefKind) (name : Symbol) (given : List Symbol)
    (params : List (Param Pending)) :
    ListTells (params.map fun _ => false) (forwarders s kind name given params) := by
  induction params generalizing given with
  | nil => exact .nil
  | cons next params ih => exact .cons (tells_definePlain s kind name given _) (ih _)

theorem tells_define (s : Span) (kind : DefKind) (name : Symbol) (params : List (Param Pending))
    (body : Option Pending) : Tells false (define s kind name params body) := by
  show Norm.Gives _ (if _ then _ else _)
  split
  · have hSeq := tells_seq s (List.rel_append (listTells_forwarders s kind name
      ((params.takeWhile (·.default.isNone)).map (·.name)) (params.dropWhile (·.default.isNone)))
      (.cons (tells_definePlain s kind name (params.map (·.name)) body) .nil))
    have hNone : ((params.dropWhile (·.default.isNone)).map (fun _ => false) ++ [false]).any id =
        false := by simp
    rwa [hNone] at hSeq
  · exact tells_definePlain s kind name _ body

theorem tells_array (s : Span) (elements : List Pending) (type : Option ConstPath) :
    Tells false (array s elements type) :=
  gives_bind fun _ => gives_bind fun _ => gives_ite (gives_pure rfl)
    (gives_bind fun _ => gives_pure rfl)

theorem tells_hash (s : Span) (entries : List (HashEntry Pending)) (types : Option HashTypes) :
    Tells false (hash s entries types) :=
  gives_bind fun _ => gives_bind fun _ => gives_ite (gives_pure rfl)
    (gives_bind fun _ => gives_pure rfl)

end Pending

/-! ## Trees -/

namespace Node

open CoreTree.Norm Pending

theorem ends_of_plainVar {n : Node} (h : n.plainVar?.isSome = true) : n.ends = false := by
  cases n <;> first | rfl | cases h

theorem ends_of_isRepeatable {n : Node} (h : isRepeatable n = true) : n.ends = false := by
  cases n <;> first | rfl | cases h

end Node

open CoreTree.Norm Pending

mutual
theorem Node.tells_pending (answer : RequireHandler) :
    ∀ n : Node, (n.pending answer).Tells n.ends
  | .atom s a => tells_atom s a
  | .var s v => tells_var s v
  | .seq s stmts => by
    have hSeq := tells_seq s (listTells_pendingList answer stmts)
    rwa [List.any_map, Function.id_comp, ← listEnds_eq] at hSeq
  | .cond s form test body other =>
    tells_cond s form (test.pending answer) (optionTells_pendingOption answer body)
      (optionTells_pendingOption answer other)
  | .loop .. => gives_bind fun _ => gives_bind fun _ => gives_bind fun _ => gives_bind fun _ =>
    gives_bind fun _ => gives_bind fun _ => gives_pure rfl
  | .choose s subject whens other => by
    have hChoose := tells_choose s (subject.pending answer) (whensTell_pendingWhens answer whens)
      (optionTells_pendingOption answer other)
    rwa [List.all_map, Function.id_comp, ← whensEnd_eq] at hChoose
  | .logic s .and left right => tells_and s (right.pending answer) (right.tells_pending answer)
    fun h => by
      rw [Node.source_pending] at h
      exact Node.ends_of_isRepeatable h ▸ left.tells_pending answer
  | .logic s .or left right => tells_or s (right.pending answer) (right.tells_pending answer)
    fun h => by
      rw [Node.source_pending] at h
      exact Node.ends_of_plainVar h ▸ left.tells_pending answer
  | .jump .. => gives_bind fun _ => gives_pure rfl
  | .assign s target value => tells_assign s (target.pending answer) (value.pending answer)
  | .multi .. => gives_bind fun _ => gives_bind fun _ => gives_pure rfl
  | .call _ _ _ _ none | .call _ _ _ _ (some ⟨_, _⟩) =>
    gives_bind fun _ => gives_bind fun _ => gives_bind fun _ => gives_pure rfl
  | .isA .. => gives_bind fun _ => gives_pure rfl
  | .define s kind name params body =>
    tells_define s kind name (pendingParams answer params) (pendingOption answer body)
  | .interp .. => gives_bind fun _ => gives_pure rfl
  | .range .. => gives_bind fun _ => gives_bind fun _ => gives_pure rfl
  | .regex .. => gives_bind fun _ => gives_pure rfl
  | .array s elements type => tells_array s (pendingList answer elements) type
  | .hash s entries types => tells_hash s (pendingEntries answer entries) types
  | .require .. => gives_bind fun _ => gives_pure rfl

theorem optionTells_pendingOption (answer : RequireHandler) :
    ∀ n : Option Node, OptionTells (optionEnds n) (pendingOption answer n)
  | none => rfl
  | some n => n.tells_pending answer

theorem listTells_pendingList (answer : RequireHandler) :
    ∀ ns : List Node, ListTells (ns.map Node.ends) (pendingList answer ns)
  | [] => .nil
  | n :: ns => .cons (n.tells_pending answer) (listTells_pendingList answer ns)

theorem whensTell_pendingWhens (answer : RequireHandler) : ∀ ws : List (When Node),
    List.Forall₂ (fun e w => OptionTells e w.body) (ws.map fun w => optionEnds w.body)
      (pendingWhens answer ws)
  | [] => .nil
  | ⟨_, body⟩ :: ws =>
    .cons (optionTells_pendingOption answer body) (whensTell_pendingWhens answer ws)
end

end CoreTree
