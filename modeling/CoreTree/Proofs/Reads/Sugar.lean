import CoreTree.Proofs.Reads.Walk
import CoreTree.Proofs.Runs.Calls

/-! # Sugar is walked as what it stands for

`and`, `or` and `case` meet the same reads as the chains of conditionals that they stand for, and
bind the same names, although the chains repeat the reads of a left side or of a subject. A repeated
read finds bound what the first one found bound. A definition with default values is walked as the
sequence of its shorter forms.
-/
namespace CoreTree
set_option autoImplicit false

namespace Walk

variable {α β : Type}

/-- A read that comes after the same read does nothing. -/
theorem read_again (s s' : Span) (x : Symbol) {w : Walk α} (h : w.Keeps) (f : α → Walk β) :
    (do read s x; let a ← w; read s' x; f a) = (do read s x; let a ← w; f a) := by
  refine ext fun bound => ?_
  by_cases hx : x ∈ bound
  · have hFirst : (read s x).run bound = .ok ((), bound) := by rw [run_read, if_pos hx]
    rw [ok_bind _ _ hFirst, ok_bind _ _ hFirst]
    cases hRun : w.run bound with
    | error read => rw [error_bind w _ hRun, error_bind w _ hRun]
    | ok result =>
      rw [ok_bind w _ hRun, ok_bind w _ hRun]
      have hSecond : (read s' x).run result.2 = .ok ((), result.2) := by
        rw [run_read, if_pos (h _ _ _ hRun hx)]
      exact ok_bind _ _ hSecond
  · have hFirst : (read s x).run bound = .error ⟨x, s⟩ := by rw [run_read, if_neg hx]
    rw [error_bind _ _ hFirst, error_bind _ _ hFirst]

theorem branches_ends_left (w : Walk Bool) :
    branches (pure false) w = (do let _ ← w; return false) := by
  simp only [branches, pure_bind, Bool.false_and]

theorem branches_ends_right (w : Walk Bool) :
    branches w (pure false) = (do let _ ← w; return false) := by
  simp only [branches, pure_bind, Bool.and_false]

end Walk

namespace Node

theorem walk_save (t : Symbol) (n : Node) :
    (n.save t).walk = (do let _ ← n.walk; return false) := by
  simp only [save, temp, walk, Walk.value, Walk.target, pure_bind]

theorem walk_temp (s : Span) (t : Symbol) : (temp s t).walk = pure false := by
  simp only [temp, walk]

/-- What may be evaluated twice reads one variable and nothing else. -/
theorem walk_of_isRepeatable {n : Node} (h : Pending.isRepeatable n = true) :
    ∃ s x, n.walk = (do Walk.read s x; return false) := by
  have hVar : ∀ {m : Node}, m.plainVar?.isSome = true →
      ∃ s x, m.walk = (do Walk.read s x; return false) := by
    intro m hm
    obtain ⟨v, hv⟩ := Option.isSome_iff_exists.mp hm
    obtain ⟨⟨s, rfl⟩, hOut⟩ := (plainVar?_eq_some_iff m v).mp hv
    exact ⟨s, v.name, by simp only [walk, Walk.use, hOut, Bool.false_eq_true, reduceIte]⟩
  unfold Pending.isRepeatable at h
  split at h
  · obtain ⟨s, x, hWalk⟩ := hVar h
    exact ⟨s, x, by simp only [walk, hWalk, bind_assoc, pure_bind]⟩
  · exact hVar h

theorem walk_logicAsCond (s : Span) (t : Symbol) (op : LogicOp) (left right : Node) :
    (logicAsCond s t op left right).walk = (logic s op left right).walk := by
  cases op with
  | and =>
    rw [logicAsCond]
    split
    · rename_i hRepeat
      obtain ⟨s', x, hLeft⟩ := walk_of_isRepeatable hRepeat
      simpa only [walk, walkOption, Walk.branches, hLeft, bind_assoc, pure_bind, Bool.and_false]
        using Walk.read_again s' s' x right.keeps_walk fun _ => (pure false : Walk Bool)
    · simp only [walk, walkOption, walk_save, walk_temp, Walk.branches_ends_right, bind_assoc,
        pure_bind]
  | or =>
    rw [logicAsCond]
    split
    · rename_i hPlain
      have hRepeat : Pending.isRepeatable left = true := by
        unfold Pending.isRepeatable
        split
        · cases hPlain
        · exact hPlain
      obtain ⟨s', x, hLeft⟩ := walk_of_isRepeatable hRepeat
      have hAgain := Walk.read_again s' s' x (Walk.keeps_pure ()) fun _ =>
        (do let _ ← right.walk; return false : Walk Bool)
      simpa only [walk, walkOption, Walk.branches, hLeft, bind_assoc, pure_bind, Bool.false_and]
        using hAgain
    · simp only [walk, walkOption, walk_save, walk_temp, Walk.branches_ends_left, bind_assoc,
        pure_bind]

/-! ## `case` -/

theorem walk_matchTest (scrutinee pattern : Node) : (matchTest scrutinee pattern).walk =
    (do let _ ← pattern.walk; let _ ← scrutinee.walk; return false) := by
  simp only [matchTest, send, walk, walkOption, walkList, bind_assoc, pure_bind]

theorem walk_clauseTest (s : Span) (scrutinee : Node) (patterns : List Node) :
    (clauseTest s scrutinee patterns).walk =
      (do walkPatterns patterns scrutinee.walk; return false) := by
  -- each disjunction walks what stands before it, and then one more pattern
  have hFold : ∀ (acc : Node) (w : Walk Unit), acc.walk = (do w; return false) →
      ((patterns.tail.map (matchTest scrutinee)).foldl
        (fun acc test => .logic (acc.span.merge test.span) .or acc test) acc).walk =
        (do w; walkPatterns patterns.tail scrutinee.walk; return false) := by
    intro acc w h
    induction patterns.tail generalizing acc w with
    | nil => simpa only [List.map_nil, List.foldl_nil, walkPatterns, pure_bind] using h
    | cons p ps ih =>
      rw [List.map_cons, List.foldl_cons,
        ih _ (do w; let _ ← p.walk; let _ ← scrutinee.walk; return ()) (by
          simp only [walk, h, walk_matchTest, bind_assoc, pure_bind])]
      simp only [walkPatterns, bind_assoc, pure_bind]
  cases patterns with
  | nil => simp only [clauseTest, bool, walk, walkPatterns, pure_bind]
  | cons pattern patterns =>
    refine (hFold _ (do let _ ← pattern.walk; let _ ← scrutinee.walk; return ()) ?_).trans ?_
    · simp only [walk_matchTest, bind_assoc, pure_bind]
    · simp only [walkPatterns, List.tail_cons, bind_assoc, pure_bind]

theorem walkOption_clauses (s : Span) (scrutinee : Node) (whens : List (When Node))
    (other : Option Node) :
    walkOption (clauses s scrutinee whens other) =
      walkWhens whens scrutinee.walk (walkOption other) := by
  induction whens with
  | nil => simp only [clauses, List.foldr_nil, walkWhens]
  | cons w ws ih =>
    have hRest : clauses s scrutinee (w :: ws) other =
      some (.cond s .whenTrue (clauseTest s scrutinee w.patterns) w.body
        (clauses s scrutinee ws other)) := rfl
    simp only [hRest, walkOption, walk, walk_clauseTest, ih, walkWhens, bind_assoc, pure_bind]

theorem walk_clauseChain (s : Span) (scrutinee : Node) (whens : List (When Node))
    (other : Option Node) : (clauseChain s scrutinee whens other).walk =
      walkWhens whens scrutinee.walk (walkOption other) := by
  rw [← walkOption_clauses s, clauseChain]
  cases clauses s scrutinee whens other with
  | none => simp only [Option.getD_none, nil, walk, walkOption]
  | some n => simp only [Option.getD_some, walkOption]

/-- A statement that does not end is followed by the rest. -/
theorem walkStatements_cons {first : Node} {w : Walk Unit} (h : first.walk = (do w; return false))
    (rest : List Node) : walkStatements (first :: rest) = (do w; walkStatements rest) := by
  simp only [walkStatements, h, bind_assoc, pure_bind, Bool.false_eq_true, reduceIte]

theorem walkStatements_singleton (n : Node) : walkStatements [n] = n.walk := by
  rw [walkStatements]
  refine (bind_congr fun ends => ?_).trans (bind_pure n.walk)
  cases ends <;> rfl

theorem walk_chooseAsChain (s : Span) (t : Symbol) (subject : Node) (whens : List (When Node))
    (other : Option Node) :
    (chooseAsChain s t subject whens other).walk = (choose s subject whens other).walk := by
  rw [chooseAsChain]
  split
  · rename_i hScrutinee
    simp only [walk, walk_clauseChain, hScrutinee, reduceIte]
  · rename_i hOther
    have hSave : (subject.save t).walk =
        (do (do let _ ← subject.walk; return ()); return false) := by
      simp only [walk_save, bind_assoc, pure_bind]
    rw [walk, walkStatements_cons hSave, walkStatements_singleton]
    simp only [walk, walk_clauseChain, walk_temp, hOther, bind_assoc, pure_bind, reduceIte,
      Bool.false_eq_true]

/-! ## Default values -/

theorem walkDefaults_plainParams (params given : List Symbol) :
    walkDefaults (plainParams params) given = pure () := by
  induction params generalizing given with
  | nil => simp only [plainParams, List.map_nil, walkDefaults]
  | cons p ps ih =>
    have hRest : plainParams (p :: ps) = ⟨p, none⟩ :: plainParams ps := rfl
    simp only [hRest, walkDefaults, walkOption, Walk.apart_pure, pure_bind, ih]

theorem walk_definePlain (s : Span) (kind : DefKind) (name : Symbol) (params : List Symbol)
    (body : Option Node) : (define s kind name (plainParams params) body).walk =
      (do let _ ← Walk.apart params.toFinset (walkOption body); return false) := by
  have hNames : (plainParams params).map (·.name) = params := by
    simp [plainParams, Function.comp_def]
  simp only [walk, walkDefaults_plainParams, hNames, pure_bind]

theorem walkDefaults_of_required {required : List (Param Node)}
    (h : ∀ p ∈ required, p.default = none) (rest : List (Param Node)) (given : List Symbol) :
    walkDefaults (required ++ rest) given = walkDefaults rest (given ++ required.map (·.name)) := by
  induction required generalizing given with
  | nil => simp
  | cons p ps ih =>
    obtain ⟨name, default⟩ := p
    obtain rfl : default = none := h _ (.head _)
    simp only [List.cons_append, walkDefaults, walkOption, Walk.apart_pure, pure_bind,
      ih (fun q hq => h q (.tail _ hq)), List.map_cons, List.append_assoc, List.nil_append]

theorem walkList_append (ns ms : List Node) :
    walkList (ns ++ ms) = (do walkList ns; walkList ms) := by
  induction ns with
  | nil => simp only [List.nil_append, walkList, pure_bind]
  | cons n ns ih => simp only [List.cons_append, walkList, ih, bind_assoc]

/-- The arguments that a shorter form passes on are its own parameters. -/
theorem run_walkList_vars (s : Span) {params : List Symbol} {bound : Finset Symbol}
    (h : ∀ x ∈ params, x ∈ bound) :
    (walkList (params.map fun x => .var s ⟨x, 0, false⟩)).run bound = .ok ((), bound) := by
  induction params with
  | nil => simp only [List.map_nil, walkList]; rfl
  | cons x xs ih =>
    have hRead : (Walk.read s x).run bound = .ok ((), bound) := by
      rw [Walk.run_read, if_pos (h x (.head _))]
    simp only [List.map_cons, walkList, walk, Walk.use, Bool.false_eq_true, reduceIte, bind_assoc,
      pure_bind]
    exact (Walk.ok_bind _ _ hRead).trans (ih fun y hy => h y (.tail _ hy))

/-- A shorter form walks the default value that it adds, from the parameters before it. -/
theorem walk_forwarder (s : Span) (kind : DefKind) (name : Symbol) (given : List Symbol)
    (default : Option Node) :
    (define s kind name (plainParams given) (some (.call s none name
      (given.map (fun x => .var s ⟨x, 0, false⟩) ++ [default.getD (.nil s)]) none))).walk =
      (do let _ ← Walk.apart given.toFinset (walkOption default); return false) := by
  have hDefault : (default.getD (.nil s)).walk = walkOption default := by
    cases default with
    | none => simp only [Option.getD_none, nil, walk, walkOption]
    | some n => simp only [Option.getD_some, walkOption]
  have hCall : (walkOption (some (.call s none name
      (given.map (fun x => .var s ⟨x, 0, false⟩) ++ [default.getD (.nil s)]) none))).run
        given.toFinset = (do let _ ← walkOption default; return false : Walk Bool).run
          given.toFinset := by
    simp only [walkOption, walk, walkList_append, walkList, hDefault, bind_assoc, pure_bind]
    exact Walk.ok_bind _ _ (run_walkList_vars s fun x hx => List.mem_toFinset.mpr hx)
  rw [walk_definePlain]
  refine Walk.ext fun bound => ?_
  rw [StateT.run_bind, StateT.run_bind, Walk.run_apart, Walk.run_apart, hCall, StateT.run_bind]
  cases (walkOption default).run given.toFinset <;> rfl

theorem walkStatements_forwarders (s : Span) (kind : DefKind) (name : Symbol)
    (given : List Symbol) (params : List (Param Node)) (rest : List Node) :
    walkStatements (forwarders s kind name given params ++ rest) =
      (do walkDefaults params given; walkStatements rest) := by
  induction params generalizing given with
  | nil => simp only [forwarders, List.nil_append, walkDefaults, pure_bind]
  | cons next params ih =>
    obtain ⟨param, default⟩ := next
    have hFirst : (define s kind name (plainParams given) (some (.call s none name
        (given.map (fun x => .var s ⟨x, 0, false⟩) ++ [default.getD (.nil s)]) none))).walk =
          (do
            (do let _ ← Walk.apart given.toFinset (walkOption default); return ())
            return false) := by
      simpa only [bind_assoc, pure_bind] using walk_forwarder s kind name given default
    rw [forwarders, List.cons_append, walkStatements_cons hFirst, ih]
    simp only [walkDefaults, bind_assoc, pure_bind]

theorem walk_expandedDefine (s : Span) (kind : DefKind) (name : Symbol)
    (params : List (Param Node)) (body : Option Node) :
    (expandedDefine s kind name params body).walk = (define s kind name params body).walk := by
  have hRequired : ∀ p ∈ params.takeWhile (·.default.isNone), p.default = none := by
    intro p hp
    have hNone := List.all_eq_true.mp List.all_takeWhile p hp
    exact Option.isNone_iff_eq_none.mp hNone
  have hDefaults := walkDefaults_of_required hRequired (params.dropWhile (·.default.isNone)) []
  rw [List.takeWhile_append_dropWhile, List.nil_append] at hDefaults
  rw [expandedDefine, walk, walkStatements_forwarders, walkStatements_singleton, walk_definePlain,
    ← hDefaults, walk]

/-- A tree that sugar stands for meets the reads of the sugar, up to repeated ones, and binds the
same names. -/
theorem Means.walk_eq {n m : Node} (h : n.Means m) : m.walk = n.walk := by
  cases h with
  | choose t => exact walk_chooseAsChain _ t _ _ _
  | logic t => exact walk_logicAsCond _ t _ _ _
  | define => exact walk_expandedDefine _ _ _ _ _

end Node

end CoreTree
