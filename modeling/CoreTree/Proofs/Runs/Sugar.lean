import CoreTree.Proofs.Runs.Calls

/-! # What sugar leaves alone

The simpler tree that sugar stands for is put together from the parts of the sugar. What is new
in it are atoms, reads of variables, conditionals, disjunctions, sequences, calls without a block,
assignments to temporaries and definitions. Whatever such nodes have in common holds all over the
simpler tree if it holds all over the sugar.
-/
namespace CoreTree
set_option autoImplicit false

namespace Node

def isDefine : Node → Bool
  | .define .. => true
  | _ => false

/-- A node that the tree holds at any depth, inside of nested definitions only if `inner`. -/
inductive Reaches (inner : Bool) (root : Node) : Node → Prop where
  | root : root.Reaches inner root
  | part {n part : Node} (h : root.Reaches inner n) (hOpen : inner = true ∨ n.isDefine = false)
    (hPart : part ∈ n.parts) : root.Reaches inner part

def Everywhere (inner : Bool) (P : Node → Prop) (root : Node) : Prop :=
  ∀ n, root.Reaches inner n → P n

theorem reaches_true_iff {root n : Node} : root.Reaches true n ↔ root.Has n := by
  constructor
  · intro h
    induction h with
    | root => exact .root
    | part _ _ hPart ih => exact .part ih hPart
  · intro h
    induction h with
    | root => exact .root
    | part _ hPart ih => exact .part ih (.inl rfl) hPart

variable {inner : Bool} {P : Node → Prop}

theorem Reaches.of_part {root part n : Node} (hOpen : inner = true ∨ root.isDefine = false)
    (hPart : part ∈ root.parts) (h : part.Reaches inner n) : root.Reaches inner n := by
  induction h with
  | root => exact .part .root hOpen hPart
  | part _ hOpen' hMem ih => exact .part ih hOpen' hMem

theorem Reaches.cases_root {root n : Node} (h : root.Reaches inner n) :
    n = root ∨ (inner = true ∨ root.isDefine = false) ∧
      ∃ part ∈ root.parts, part.Reaches inner n := by
  induction h with
  | root => exact .inl rfl
  | part _ hOpen hMem ih =>
    obtain rfl | ⟨hRoot, p, hp, hReaches⟩ := ih
    · exact .inr ⟨hOpen, _, hMem, .root⟩
    · exact .inr ⟨hRoot, p, hp, .part hReaches hOpen hMem⟩

theorem everywhere_iff (n : Node) : n.Everywhere inner P ↔
    P n ∧ (inner = true ∨ n.isDefine = false → ∀ part ∈ n.parts, part.Everywhere inner P) := by
  constructor
  · exact fun h => ⟨h n .root, fun hOpen part hPart m hm => h m (.of_part hOpen hPart hm)⟩
  · rintro ⟨hRoot, hParts⟩ m hm
    obtain rfl | ⟨hOpen, part, hPart, hReaches⟩ := hm.cases_root
    · exact hRoot
    · exact hParts hOpen part hPart m hReaches

/-- Parts of a node that is no definition. -/
theorem Everywhere.parts {n : Node} (h : n.Everywhere inner P) (hDefine : n.isDefine = false) :
    ∀ part ∈ n.parts, part.Everywhere inner P :=
  ((everywhere_iff n).mp h).2 (.inr hDefine)

/-- The nodes that may be new in the simpler tree. -/
def IsGlue : Node → Prop
  | .assign _ (.atom _ (.temp _)) _ => True
  | .require .. | .loop .. | .call _ _ _ _ (some _) | .assign .. | .multi .. => False
  | _ => True

/-- What is new among atoms is `nil`, a truth value, or one of the temporaries in `temps`, and what
is assigned anew is one of those in `saved`. -/
def NewTemps (temps saved : Symbol → Prop) : Node → Prop
  | .atom _ .nil | .atom _ (.bool _) => True
  | .atom _ (.temp t) => temps t
  | .atom .. => False
  | .assign _ (.atom _ (.temp t)) _ => saved t
  | _ => True

def IsNew (temps saved : Symbol → Prop) (n : Node) : Prop :=
  n.IsGlue ∧ n.NewTemps temps saved ∧ n.isDefine = false

theorem everywhere_of_root {n : Node} (h : P n)
    (hParts : ∀ part ∈ n.parts, part.Everywhere inner P) : n.Everywhere inner P :=
  (everywhere_iff n).mpr ⟨h, fun _ => hParts⟩

theorem everywhere_of_parts (hGlue : ∀ n : Node, n.IsGlue → P n) {n : Node} (h : n.IsGlue)
    (hParts : ∀ part ∈ n.parts, part.Everywhere inner P) : n.Everywhere inner P :=
  everywhere_of_root (hGlue n h) hParts

theorem everywhere_atom (hGlue : ∀ n : Node, n.IsGlue → P n) (s : Span) (a : Atom) :
    (atom s a).Everywhere inner P :=
  everywhere_of_root (hGlue _ trivial) nofun

section

variable {temps saved : Symbol → Prop} (hNew : ∀ n : Node, n.IsNew temps saved → P n)
include hNew

theorem everywhere_temp (s : Span) {t : Symbol} (ht : temps t) : (temp s t).Everywhere inner P :=
  everywhere_of_root (hNew _ ⟨trivial, ht, rfl⟩) nofun

theorem everywhere_save {n : Node} {t : Symbol} (ht : temps t ∧ saved t)
    (h : n.Everywhere inner P) : (n.save t).Everywhere inner P := by
  refine everywhere_of_root (hNew _ ⟨trivial, ht.2, rfl⟩) fun part hPart => ?_
  obtain rfl | rfl : part = temp n.span t ∨ part = n := by simpa [save] using hPart
  · exact everywhere_temp hNew _ ht.1
  · exact h

theorem everywhere_cond (s : Span) (form : CondForm) {test : Node} {body other : Option Node}
    (hTest : test.Everywhere inner P) (hBody : ∀ n, body = some n → n.Everywhere inner P)
    (hOther : ∀ n, other = some n → n.Everywhere inner P) :
    (cond s form test body other).Everywhere inner P := by
  refine everywhere_of_root (hNew _ ⟨trivial, trivial, rfl⟩) fun part hPart => ?_
  obtain rfl | h | h : part = test ∨ body = some part ∨ other = some part := by
    simpa using hPart
  · exact hTest
  · exact hBody part h
  · exact hOther part h

theorem everywhere_logicAsCond (s : Span) {t : Symbol} (op : LogicOp) {left right : Node}
    (ht : Code.savesLeft op left = true → temps t ∧ saved t) (hLeft : left.Everywhere inner P)
    (hRight : right.Everywhere inner P) :
    (logicAsCond s t op left right).Everywhere inner P := by
  have hSome : ∀ {n : Node}, n.Everywhere inner P →
      ∀ m, some n = some m → m.Everywhere inner P := by
    rintro n h m ⟨⟩
    exact h
  cases op with
  | and =>
    rw [logicAsCond]
    split
    · exact everywhere_cond hNew s _ hLeft (hSome hRight) (hSome hLeft)
    · rename_i hSaves
      have ht := ht (by simpa [Code.savesLeft] using hSaves)
      exact everywhere_cond hNew s _ (everywhere_save hNew ht hLeft) (hSome hRight)
        (hSome (everywhere_temp hNew _ ht.1))
  | or =>
    rw [logicAsCond]
    split
    · exact everywhere_cond hNew s _ hLeft (hSome hLeft) (hSome hRight)
    · rename_i hSaves
      have ht := ht (by simpa [Code.savesLeft] using hSaves)
      exact everywhere_cond hNew s _ (everywhere_save hNew ht hLeft)
        (hSome (everywhere_temp hNew _ ht.1)) (hSome hRight)

theorem everywhere_matchTest {scrutinee pattern : Node} (hScrutinee : scrutinee.Everywhere inner P)
    (hPattern : pattern.Everywhere inner P) :
    (matchTest scrutinee pattern).Everywhere inner P := by
  refine everywhere_of_root (hNew _ ⟨trivial, trivial, rfl⟩) fun part hPart => ?_
  obtain rfl | rfl : part = pattern ∨ part = scrutinee := by
    simpa [matchTest, send] using hPart
  · exact hPattern
  · exact hScrutinee

theorem everywhere_clauseTest (s : Span) {scrutinee : Node} {patterns : List Node}
    (hScrutinee : scrutinee.Everywhere inner P)
    (hPatterns : ∀ p ∈ patterns, p.Everywhere inner P) :
    (clauseTest s scrutinee patterns).Everywhere inner P := by
  cases patterns with
  | nil => exact everywhere_of_root (hNew _ ⟨trivial, trivial, rfl⟩) nofun
  | cons pattern patterns =>
    have hFirst := everywhere_matchTest hNew hScrutinee (hPatterns pattern (.head _))
    refine List.foldlRecOn _ _ hFirst fun acc hAcc test hTest => ?_
    obtain ⟨p, hp, rfl⟩ := List.mem_map.mp hTest
    refine everywhere_of_root (hNew _ ⟨trivial, trivial, rfl⟩) fun part hPart => ?_
    obtain rfl | rfl : part = acc ∨ part = matchTest scrutinee p := by simpa using hPart
    · exact hAcc
    · exact everywhere_matchTest hNew hScrutinee (hPatterns p (.tail _ hp))

theorem everywhere_clauseChain (s : Span) {scrutinee : Node} {whens : List (When Node)}
    {other : Option Node} (hScrutinee : scrutinee.Everywhere inner P)
    (hWhens : ∀ w ∈ whens, (∀ p ∈ w.patterns, p.Everywhere inner P) ∧
      ∀ n, w.body = some n → n.Everywhere inner P)
    (hOther : ∀ n, other = some n → n.Everywhere inner P) :
    (clauseChain s scrutinee whens other).Everywhere inner P := by
  have hClauses : ∀ n, clauses s scrutinee whens other = some n → n.Everywhere inner P := by
    induction whens with
    | nil => exact hOther
    | cons w ws ih =>
      rintro _ ⟨⟩
      obtain ⟨hPatterns, hBody⟩ := hWhens w (.head _)
      exact everywhere_cond hNew s _ (everywhere_clauseTest hNew s hScrutinee hPatterns) hBody
        (ih fun w' hw' => hWhens w' (.tail _ hw'))
  rw [clauseChain]
  cases hCase : clauses s scrutinee whens other with
  | none => exact everywhere_of_root (hNew _ ⟨trivial, trivial, rfl⟩) nofun
  | some n => exact hClauses n hCase

/-- The chain for a `case`, with any scrutinee in place of the subject. -/
theorem everywhere_chain_of_choose (s : Span) {scrutinee subject : Node} {whens : List (When Node)}
    {other : Option Node} (hScrutinee : scrutinee.Everywhere inner P)
    (h : (choose s subject whens other).Everywhere inner P) :
    (clauseChain s scrutinee whens other).Everywhere inner P := by
  have hParts := h.parts rfl
  refine everywhere_clauseChain hNew s hScrutinee (fun w hw => ⟨fun p hp => hParts p ?_,
    fun n hn => hParts n ?_⟩) fun n hn => hParts n (by simp [hn])
  · simp only [parts, List.mem_cons, List.mem_append, List.mem_flatMap]
    exact .inr (.inl ⟨w, hw, .inl hp⟩)
  · simp only [parts, List.mem_cons, List.mem_append, List.mem_flatMap]
    exact .inr (.inl ⟨w, hw, .inr (by simp [hn])⟩)

theorem everywhere_chooseAsChain (s : Span) {t : Symbol} {subject : Node}
    {whens : List (When Node)} {other : Option Node}
    (ht : Pending.isScrutinee subject = false → temps t ∧ saved t)
    (h : (choose s subject whens other).Everywhere inner P) :
    (chooseAsChain s t subject whens other).Everywhere inner P := by
  have hSubject : subject.Everywhere inner P := h.parts rfl subject (by simp)
  rw [chooseAsChain]
  split
  · exact everywhere_chain_of_choose hNew s hSubject h
  · rename_i hSaves
    have ht := ht (Bool.eq_false_iff.mpr hSaves)
    refine everywhere_of_root (hNew _ ⟨trivial, trivial, rfl⟩) fun part hPart => ?_
    obtain rfl | rfl : part = subject.save t ∨
        part = clauseChain s (.temp subject.span t) whens other := by simpa using hPart
    · exact everywhere_save hNew ht hSubject
    · exact everywhere_chain_of_choose hNew s (everywhere_temp hNew _ ht.1) h

variable (hDefine : ∀ n : Node, n.isDefine = true → P n)
include hDefine

theorem everywhere_forwarders (s : Span) (kind : DefKind) (name : Symbol) (given : List Symbol)
    {params : List (Param Node)}
    (hParams : inner = true → ∀ p ∈ params, ∀ n, p.default = some n → n.Everywhere inner P) :
    ∀ m ∈ forwarders s kind name given params, m.Everywhere inner P := by
  induction params generalizing given with
  | nil => exact nofun
  | cons next params ih =>
    refine List.forall_mem_cons.mpr ⟨?_, ih _ fun hInner p hp => hParams hInner p (.tail _ hp)⟩
    refine (everywhere_iff _).mpr ⟨hDefine _ rfl, fun hOpen => ?_⟩
    obtain rfl : inner = true := hOpen.resolve_right Bool.noConfusion
    intro part hPart
    obtain rfl : part = call s none name (given.map (fun x => .var s ⟨x, 0, false⟩) ++
        [next.default.getD (nil s)]) none := by
      simpa [plainParams] using hPart
    refine everywhere_of_root (hNew _ ⟨trivial, trivial, rfl⟩) fun arg hArg => ?_
    obtain ⟨x, _, rfl⟩ | rfl : (∃ x ∈ given, var s ⟨x, 0, false⟩ = arg) ∨
        arg = next.default.getD (nil s) := by simpa using hArg
    · exact everywhere_of_root (hNew _ ⟨trivial, trivial, rfl⟩) nofun
    · cases hDefault : next.default with
      | none => exact everywhere_of_root (hNew _ ⟨trivial, trivial, rfl⟩) nofun
      | some n => exact hParams rfl next (.head _) n hDefault

theorem everywhere_expandedDefine (s : Span) (kind : DefKind) (name : Symbol)
    {params : List (Param Node)} {body : Option Node}
    (h : (define s kind name params body).Everywhere inner P) :
    (expandedDefine s kind name params body).Everywhere inner P := by
  have hParts := ((everywhere_iff _).mp h).2
  refine everywhere_of_root (hNew _ ⟨trivial, trivial, rfl⟩) fun part hPart => ?_
  obtain hPart | rfl := (List.mem_append.mp hPart).imp_right List.mem_singleton.mp
  · refine everywhere_forwarders hNew hDefine s kind name _ (fun hInner p hp n hn => ?_) part hPart
    refine hParts (.inl hInner) n (List.mem_append_left _ (List.mem_filterMap.mpr ⟨p, ?_, hn⟩))
    exact List.dropWhile_subset _ hp
  · refine (everywhere_iff _).mpr ⟨hDefine _ rfl, fun hOpen m hm => ?_⟩
    refine hParts hOpen m ?_
    have hBody : body = some m := by simpa [plainParams] using hm
    exact List.mem_append_right _ (by simp [hBody])

end

section

variable (hGlue : ∀ n : Node, n.IsGlue → P n)
include hGlue

theorem everywhere_of_means {n m : Node} (hMeans : n.Means m) (h : n.Everywhere inner P) :
    m.Everywhere inner P := by
  have hNew : ∀ n : Node, n.IsNew (fun _ => True) (fun _ => True) → P n := fun n hn => hGlue n hn.1
  cases hMeans with
  | choose t => exact everywhere_chooseAsChain hNew _ (fun _ => ⟨trivial, trivial⟩) h
  | logic t =>
    have hParts := h.parts rfl
    exact everywhere_logicAsCond hNew _ _ (fun _ => ⟨trivial, trivial⟩) (hParts _ (.head _))
      (hParts _ (.tail _ (.head _)))
  | define =>
    refine everywhere_expandedDefine hNew (fun n hn => hGlue n ?_) _ _ _ h
    cases n with
    | define => trivial
    | _ => cases hn

/-- What holds all over a tree holds all over the trees that its code hands on. -/
theorem everywhere_of_calls {n m : Node} (hCalls : n.code.Calls m)
    (hOpen : inner = true ∨ n.isDefine = false ∨ n.Means m)
    (h : n.Everywhere inner P) : m.Everywhere inner P := by
  obtain hPart | hMeans := mem_parts_of_calls hCalls
  · obtain hInner | hDefine | hMeans := hOpen
    · exact ((everywhere_iff n).mp h).2 (.inl hInner) m hPart
    · exact h.parts hDefine m hPart
    · exact everywhere_of_means hGlue hMeans h
  · exact everywhere_of_means hGlue hMeans h

end

end Node

end CoreTree
