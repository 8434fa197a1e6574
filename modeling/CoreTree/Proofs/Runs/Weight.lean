import CoreTree.Proofs.Runs.Calls

/-! # Weight

The size of a tree, with sugar charged for what it turns into: a `case` for a test and a
disjunction for each pattern, `and` and `or` for a conditional, a definition with default values
for a definition for each number of arguments.
-/
namespace CoreTree
set_option autoImplicit false

/-- What `and` and `or` are charged: a conditional, and saving the left side. -/
def logicCharge : Nat := 5

/-- What a definition with default values is charged for each of its shorter forms, which pass on
their parameters and one default value. -/
def forwarderCharge (count : Nat) : Nat := count + 4

mutual
def Node.weight : Node → Nat
  | .atom .. | .var .. | .regex .. | .require .. => 1
  | .seq _ stmts => 1 + listWeight stmts
  | .cond _ _ test body other => 1 + test.weight + optionWeight body + optionWeight other
  | .loop _ test body => 1 + test.weight + optionWeight body
  | .choose _ subject whens other => 6 + subject.weight + whensWeight whens + optionWeight other
  | .logic _ _ left right => logicCharge + left.weight + right.weight
  | .jump _ _ value => 1 + optionWeight value
  | .assign _ target value => 1 + target.weight + value.weight
  | .multi _ targets values => 1 + listWeight targets + listWeight values
  | .call _ receiver _ args none => 1 + optionWeight receiver + listWeight args
  | .call _ receiver _ args (some ⟨_, body⟩) =>
    1 + optionWeight receiver + listWeight args + optionWeight body
  | .isA _ subject _ => 1 + subject.weight
  | .define _ _ _ params body => 1 + optionWeight body +
    if params.any (·.default.isSome) then
      2 + paramsWeight params + params.length * forwarderCharge params.length
    else 0
  | .interp _ pieces => 1 + listWeight pieces
  | .range _ first last _ => 1 + first.weight + last.weight
  | .array _ elements _ => 1 + listWeight elements
  | .hash _ entries _ => 1 + entriesWeight entries
termination_by structural n => n

def optionWeight : Option Node → Nat
  | none => 0
  | some n => n.weight
termination_by structural n => n

def listWeight : List Node → Nat
  | [] => 0
  | n :: ns => n.weight + listWeight ns
termination_by structural n => n

def whensWeight : List (When Node) → Nat
  | [] => 0
  | ⟨patterns, body⟩ :: whens => 3 + patternsWeight patterns + optionWeight body + whensWeight whens
termination_by structural n => n

def patternsWeight : List Node → Nat
  | [] => 0
  | n :: ns => n.weight + 2 + logicCharge + patternsWeight ns
termination_by structural n => n

def paramsWeight : List (Param Node) → Nat
  | [] => 0
  | ⟨_, default⟩ :: params => optionWeight default + paramsWeight params
termination_by structural n => n

def entriesWeight : List (HashEntry Node) → Nat
  | [] => 0
  | ⟨key, value⟩ :: entries => key.weight + value.weight + entriesWeight entries
termination_by structural n => n
end

attribute [simp] Node.weight optionWeight listWeight whensWeight patternsWeight paramsWeight
  entriesWeight

namespace Node

variable {n m : Node}

/-! ## Parts -/

theorem weight_le_optionWeight {n : Option Node} (h : n = some m) : m.weight ≤ optionWeight n := by
  simp only [h, optionWeight, Nat.le_refl]

theorem weight_le_listWeight {ns : List Node} (h : m ∈ ns) : m.weight ≤ listWeight ns := by
  induction h with
  | head => simp only [listWeight]; omega
  | tail _ _ ih => simp only [listWeight]; omega

theorem weight_le_patternsWeight {ns : List Node} (h : m ∈ ns) :
    m.weight ≤ patternsWeight ns := by
  induction h with
  | head => simp only [patternsWeight]; omega
  | tail _ _ ih => simp only [patternsWeight]; omega

theorem weight_le_whensWeight {ws : List (When Node)} {w : When Node} (hMem : w ∈ ws)
    (h : m ∈ w.patterns ∨ w.body = some m) : m.weight ≤ whensWeight ws := by
  induction hMem with
  | head =>
    obtain ⟨patterns, body⟩ := w
    rw [whensWeight]
    obtain h | h := h
    · have : m.weight ≤ patternsWeight patterns := weight_le_patternsWeight h
      omega
    · have : m.weight ≤ optionWeight body := weight_le_optionWeight h
      omega
  | @tail w' _ _ ih =>
    obtain ⟨patterns, body⟩ := w'
    rw [whensWeight]
    omega

theorem weight_le_paramsWeight {ps : List (Param Node)} {p : Param Node} (hMem : p ∈ ps)
    (h : p.default = some m) : m.weight ≤ paramsWeight ps := by
  induction hMem with
  | head =>
    obtain ⟨x, default⟩ := p
    rw [paramsWeight]
    have : m.weight ≤ optionWeight default := weight_le_optionWeight h
    omega
  | @tail p' _ _ ih =>
    obtain ⟨x, default⟩ := p'
    rw [paramsWeight]
    omega

theorem weight_le_entriesWeight {es : List (HashEntry Node)} {e : HashEntry Node} (hMem : e ∈ es)
    (h : m = e.key ∨ m = e.value) : m.weight ≤ entriesWeight es := by
  induction hMem with
  | head =>
    obtain ⟨key, value⟩ := e
    rw [entriesWeight]
    obtain rfl | rfl := h <;> omega
  | @tail e' _ _ ih =>
    obtain ⟨key, value⟩ := e'
    rw [entriesWeight]
    omega

/-- A default value is part of a definition that has one. -/
theorem weight_lt_of_mem_parts (h : m ∈ n.parts) : m.weight < n.weight := by
  cases n with
  | atom | var | regex | require => cases h
  | seq s stmts =>
    have : m.weight ≤ listWeight stmts := weight_le_listWeight h
    rw [weight]
    omega
  | cond s form test body other =>
    rw [weight]
    obtain rfl | h | h : m = test ∨ body = some m ∨ other = some m := by simpa using h
    · omega
    · have := weight_le_optionWeight h
      omega
    · have := weight_le_optionWeight h
      omega
  | loop s test body =>
    rw [weight]
    obtain rfl | h : m = test ∨ body = some m := by simpa using h
    · omega
    · have := weight_le_optionWeight h
      omega
  | choose s subject whens other =>
    rw [weight]
    obtain rfl | ⟨w, hMem, h⟩ | h : m = subject ∨
        (∃ w ∈ whens, m ∈ w.patterns ∨ w.body = some m) ∨ other = some m := by simpa using h
    · omega
    · have := weight_le_whensWeight hMem h
      omega
    · have := weight_le_optionWeight h
      omega
  | logic s op left right =>
    rw [weight, logicCharge]
    obtain rfl | rfl : m = left ∨ m = right := by simpa using h
    · omega
    · omega
  | jump s kind value =>
    have := weight_le_optionWeight (Option.mem_toList.mp h)
    rw [weight]
    omega
  | assign s target value =>
    rw [weight]
    obtain rfl | rfl : m = target ∨ m = value := by simpa using h
    · omega
    · omega
  | multi s targets values =>
    rw [weight]
    obtain h | h := List.mem_append.mp h
    · have := weight_le_listWeight h
      omega
    · have := weight_le_listWeight h
      omega
  | call s receiver name args block =>
    have hCall : optionWeight receiver + listWeight args <
        (call s receiver name args block).weight := by
      cases block <;> rw [weight] <;> omega
    obtain h | h | h : receiver = some m ∨ m ∈ args ∨ block.bind (·.body) = some m := by
      simpa only [parts, List.mem_append, Option.mem_toList] using h
    · have := weight_le_optionWeight h
      omega
    · have := weight_le_listWeight h
      omega
    · cases block with
      | none => cases h
      | some b =>
        obtain ⟨params, body⟩ := b
        have : m.weight ≤ optionWeight body := weight_le_optionWeight h
        rw [weight]
        omega
  | isA s subject type =>
    rw [weight, List.mem_singleton.mp h]
    omega
  | define s kind name params body =>
    rw [weight]
    obtain ⟨p, hMem, hDefault⟩ | h : (∃ p ∈ params, p.default = some m) ∨ body = some m := by
      simpa using h
    · have := weight_le_paramsWeight hMem hDefault
      rw [if_pos (List.any_eq_true.mpr ⟨p, hMem, by simp [hDefault]⟩)]
      omega
    · have := weight_le_optionWeight h
      omega
  | interp s pieces =>
    have : m.weight ≤ listWeight pieces := weight_le_listWeight h
    rw [weight]
    omega
  | range s first last exclusive =>
    rw [weight]
    obtain rfl | rfl : m = first ∨ m = last := by simpa using h
    · omega
    · omega
  | array s elements type =>
    have : m.weight ≤ listWeight elements := weight_le_listWeight h
    rw [weight]
    omega
  | hash s entries types =>
    obtain ⟨e, hMem, h⟩ : ∃ e ∈ entries, m = e.key ∨ m = e.value := by simpa using h
    have := weight_le_entriesWeight hMem h
    rw [weight]
    omega

/-! ## The simpler tree -/

theorem weight_of_plainVar {n : Node} (h : n.plainVar?.isSome = true) : n.weight = 1 := by
  obtain ⟨v, hv⟩ := Option.isSome_iff_exists.mp h
  obtain ⟨⟨s, rfl⟩, -⟩ := (plainVar?_eq_some_iff n v).mp hv
  rw [weight]

theorem weight_le_of_isRepeatable {n : Node} (h : Pending.isRepeatable n = true) :
    n.weight ≤ 2 := by
  unfold Pending.isRepeatable at h
  split at h
  · have := weight_of_plainVar h
    rw [weight]
    omega
  · rw [weight_of_plainVar h]
    omega

theorem weight_of_isScrutinee {n : Node} (h : Pending.isScrutinee n = true) : n.weight = 1 := by
  unfold Pending.isScrutinee at h
  split at h
  · rw [weight]
  · exact weight_of_plainVar h

theorem weight_save (t : Symbol) (n : Node) : (n.save t).weight = 2 + n.weight := by
  simp only [save, temp, weight]

theorem weight_logicAsCond_lt (s : Span) (t : Symbol) (op : LogicOp) (left right : Node) :
    (logicAsCond s t op left right).weight < (logic s op left right).weight := by
  rw [weight, logicCharge]
  cases op with
  | and =>
    rw [logicAsCond]
    split
    · rename_i hRepeatable
      have := weight_le_of_isRepeatable hRepeatable
      simp only [weight, optionWeight]
      omega
    · simp only [weight, optionWeight, weight_save, temp]
      omega
  | or =>
    rw [logicAsCond]
    split
    · rename_i hPlain
      have := weight_of_plainVar hPlain
      simp only [weight, optionWeight]
      omega
    · simp only [weight, optionWeight, weight_save, temp]
      omega

theorem weight_matchTest (scrutinee pattern : Node) :
    (matchTest scrutinee pattern).weight = 1 + pattern.weight + scrutinee.weight := by
  simp only [matchTest, send, weight, optionWeight, listWeight, Nat.add_zero]

theorem weight_clauseTest_le (s : Span) {scrutinee : Node} (h : scrutinee.weight = 1)
    (patterns : List Node) : (clauseTest s scrutinee patterns).weight ≤
      1 + patternsWeight patterns := by
  cases patterns with
  | nil => simp only [clauseTest, bool, weight, patternsWeight, Nat.le_refl]
  | cons pattern patterns =>
    have hFold : ∀ (patterns : List Node) (acc : Node),
        ((patterns.map (matchTest scrutinee)).foldl (fun acc test =>
          logic (acc.span.merge test.span) .or acc test) acc).weight =
            acc.weight + patternsWeight patterns := by
      intro patterns
      induction patterns with
      | nil =>
        intro acc
        rw [List.map_nil, List.foldl_nil, patternsWeight, Nat.add_zero]
      | cons p ps ih =>
        intro acc
        rw [List.map_cons, List.foldl_cons, ih, weight, weight_matchTest, h, patternsWeight]
        omega
    rw [clauseTest, hFold, weight_matchTest, h, patternsWeight]
    omega

theorem weight_clauseChain_le (s : Span) {scrutinee : Node} (h : scrutinee.weight = 1)
    (whens : List (When Node)) (other : Option Node) :
    (clauseChain s scrutinee whens other).weight ≤
      1 + whensWeight whens + optionWeight other := by
  have hClauses : optionWeight (clauses s scrutinee whens other) ≤
      whensWeight whens + optionWeight other := by
    induction whens with
    | nil =>
      rw [whensWeight, Nat.zero_add]
      exact Nat.le_refl _
    | cons w ws ih =>
      obtain ⟨patterns, body⟩ := w
      have hTest := weight_clauseTest_le s h patterns
      have hCons : clauses s scrutinee (⟨patterns, body⟩ :: ws) other =
        some (cond s .whenTrue (clauseTest s scrutinee patterns) body
          (clauses s scrutinee ws other)) := rfl
      rw [hCons, optionWeight, weight, whensWeight]
      omega
  rw [clauseChain]
  cases hCase : clauses s scrutinee whens other with
  | none =>
    simp only [Option.getD_none, nil, weight]
    omega
  | some n =>
    rw [hCase, optionWeight] at hClauses
    rw [Option.getD_some]
    omega

theorem weight_chooseAsChain_lt (s : Span) (t : Symbol) (subject : Node)
    (whens : List (When Node)) (other : Option Node) :
    (chooseAsChain s t subject whens other).weight < (choose s subject whens other).weight := by
  rw [weight, chooseAsChain]
  split
  · rename_i hScrutinee
    have := weight_clauseChain_le s (weight_of_isScrutinee hScrutinee) whens other
    omega
  · have hTemp : (temp subject.span t).weight = 1 := by rw [temp, weight]
    have := weight_clauseChain_le s hTemp whens other
    simp only [weight, listWeight, weight_save]
    omega

theorem any_plainParams (params : List Symbol) :
    (plainParams params).any (·.default.isSome) = false := by
  simp [plainParams]

theorem weight_definePlain (s : Span) (kind : DefKind) (name : Symbol) (params : List Symbol)
    (body : Option Node) :
    (define s kind name (plainParams params) body).weight = 1 + optionWeight body := by
  rw [weight, any_plainParams]
  rfl

theorem listWeight_append (ns ms : List Node) :
    listWeight (ns ++ ms) = listWeight ns + listWeight ms := by
  induction ns with
  | nil => simp only [List.nil_append, listWeight, Nat.zero_add]
  | cons n ns ih => simp only [List.cons_append, listWeight, ih, Nat.add_assoc]

theorem listWeight_vars (s : Span) (params : List Symbol) :
    listWeight (params.map fun x => var s ⟨x, 0, false⟩) = params.length := by
  induction params with
  | nil => simp only [List.map_nil, listWeight, List.length_nil]
  | cons x params ih =>
    simp only [List.map_cons, listWeight, ih, weight, List.length_cons]
    omega

theorem weight_getD_nil_le (s : Span) (n : Option Node) :
    (n.getD (nil s)).weight ≤ 1 + optionWeight n := by
  cases n with
  | none => simp only [Option.getD_none, nil, weight, optionWeight, Nat.le_refl]
  | some n => simp only [Option.getD_some, optionWeight, Nat.le_add_left]

/-- Each shorter form passes on fewer parameters than there are. -/
theorem listWeight_forwarders_le (s : Span) (kind : DefKind) (name : Symbol)
    (params : List (Param Node)) : ∀ (given : List Symbol) (count : Nat),
      given.length + params.length ≤ count →
      listWeight (forwarders s kind name given params) ≤
        paramsWeight params + params.length * forwarderCharge count := by
  induction params with
  | nil =>
    intro given count _
    simp only [forwarders, listWeight, Nat.zero_le]
  | cons next params ih =>
    intro given count hCount
    obtain ⟨x, default⟩ := next
    have hRest := ih (given ++ [x]) count (by simp at hCount ⊢; omega)
    have hDefault := weight_getD_nil_le s default
    have hLength : given.length ≤ count := by simp at hCount; omega
    have hCall : (call s none name (given.map (fun x => var s ⟨x, 0, false⟩) ++
        [default.getD (nil s)]) none).weight ≤ 2 + given.length + optionWeight default := by
      simp only [weight, optionWeight, listWeight_append, listWeight_vars, listWeight]
      omega
    rw [forwarders, listWeight, weight_definePlain, optionWeight, paramsWeight, List.length_cons,
      Nat.succ_mul]
    have hCharge : forwarderCharge count = count + 4 := rfl
    dsimp only
    omega

theorem weight_expandedDefine_lt (s : Span) (kind : DefKind) (name : Symbol)
    {params : List (Param Node)} (body : Option Node)
    (h : params.any (·.default.isSome) = true) :
    (expandedDefine s kind name params body).weight < (define s kind name params body).weight := by
  have hSplit : params.takeWhile (·.default.isNone) ++ params.dropWhile (·.default.isNone) =
      params := List.takeWhile_append_dropWhile
  have hParams : ∀ ps qs : List (Param Node), paramsWeight qs ≤ paramsWeight (ps ++ qs) := by
    intro ps qs
    induction ps with
    | nil => exact Nat.le_refl _
    | cons p ps ih =>
      obtain ⟨x, default⟩ := p
      rw [List.cons_append, paramsWeight]
      omega
  have hForwarders := listWeight_forwarders_le s kind name
    (params.dropWhile (·.default.isNone))
    ((params.takeWhile (·.default.isNone)).map (·.name)) params.length
    (Nat.le_of_eq (by rw [List.length_map, ← List.length_append, hSplit]))
  have hWeight := hParams (params.takeWhile (·.default.isNone))
    (params.dropWhile (·.default.isNone))
  have hLength : (params.dropWhile (·.default.isNone)).length ≤ params.length :=
    (List.dropWhile_suffix _).length_le
  have hCharge := Nat.mul_le_mul_right (forwarderCharge params.length) hLength
  rw [hSplit] at hWeight
  rw [weight, if_pos h, expandedDefine, weight, listWeight_append, listWeight, listWeight,
    weight_definePlain]
  omega

theorem Means.weight_lt (h : n.Means m) : m.weight < n.weight := by
  cases h with
  | choose t => exact weight_chooseAsChain_lt _ t _ _ _
  | logic t => exact weight_logicAsCond_lt _ t _ _ _
  | define hDefault => exact weight_expandedDefine_lt _ _ _ _ hDefault

theorem weight_lt_of_calls (h : n.code.Calls m) : m.weight < n.weight := by
  obtain h | h := mem_parts_of_calls h
  · exact weight_lt_of_mem_parts h
  · exact h.weight_lt

end Node

end CoreTree
