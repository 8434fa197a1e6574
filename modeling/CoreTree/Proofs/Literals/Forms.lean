import CoreTree.Proofs.Literals.Building
import CoreTree.Proofs.Temps.Once
import Mathlib.Algebra.Order.Group.Nat
import Mathlib.Order.Bounds.Defs

/-! # The forms of normalized literals

Arrays and hashes are kept in a temporary while they are filled, and texts are appended to piece by
piece. Run by versions, each form makes its value once and evaluates every component once and in
turn, whatever the components are, as long as none of them mentions the temporary.
-/
namespace CoreTree
set_option autoImplicit false

variable {K V : Type} [DecidableEq K]

/-! ## Room for elements -/

/-- An array has room for its elements, and for 16, and for no more than it takes. -/
theorem isLeast_arrayCapacity (count : Nat) :
    IsLeast {c | max 16 count ≤ c ∧ ∃ k, c = 2 ^ k} (arrayCapacity count) := by
  unfold arrayCapacity
  split
  · rename_i hFew
    exact ⟨⟨max_le le_rfl hFew.le, 4, rfl⟩, fun c hc => (le_max_left 16 count).trans hc.1⟩
  · rename_i hMany
    have hCount : 16 ≤ count := Nat.le_of_not_lt hMany
    have hPositive : count - 1 ≠ 0 := by omega
    have hRoom : count ≤ 2 ^ ((count - 1).log2 + 1) := by
      have hLt := (Nat.log2_lt hPositive).mp (Nat.lt_succ_self _)
      omega
    refine ⟨⟨max_le (hCount.trans hRoom) hRoom, _, rfl⟩, ?_⟩
    rintro _ ⟨hLe, k, rfl⟩
    have hLt : count - 1 < 2 ^ k := by
      have := (le_max_right 16 count).trans hLe
      omega
    exact Nat.pow_le_pow_right Nat.two_pos ((Nat.log2_lt hPositive).mpr hLt)

/-! ## Forms -/

namespace Node

/-- An array of the type with the elements: one buffer is allocated, its length is set, and each
element is written at its index, which is within the buffer. -/
structure IsArrayForm (s : Span) (type : TypeId) (t : Symbol) (elements : List Node)
    (capacity : Nat) (writes : List Node) (n : Node) : Prop where
  statements : n = .seq s (.assign s (.temp s t)
      (.send s (.atom s (.generic type)) .newName [.int s capacity]) ::
    .send s (.temp s t) .setLength [.int s elements.length] :: (writes ++ [.temp s t]))
  least : IsLeast {c | max 16 elements.length ≤ c ∧ ∃ k, c = 2 ^ k} capacity
  length : writes.length = elements.length
  write : ∀ i (h : i < elements.length), i < capacity ∧ writes[i]? = some
    (.send elements[i].span (.send elements[i].span (.temp elements[i].span t) .buffer []) .indexSet
      [.int elements[i].span i, elements[i]])

/-- A hash of the type with the entries: it is made once, and each entry is assigned in turn. -/
structure IsHashForm (s : Span) (type : TypeId) (t : Symbol) (entries : List (HashEntry Node))
    (writes : List Node) (n : Node) : Prop where
  statements : n = .seq s (.assign s (.temp s t) (.send s (.atom s (.generic type)) .newName []) ::
    (writes ++ [.temp s t]))
  length : writes.length = entries.length
  write : ∀ i (h : i < entries.length), ∃ entry : Span, writes[i]? = some
    (.send entry (.temp entry t) .indexSet [entries[i].key, entries[i].value])

/-- The pieces are appended to a new builder one after another, and the text is taken at the end. -/
def textForm (s : Span) (pieces : List Node) : Node :=
  .send s (pieces.foldl (fun text piece => .send s text .append [piece])
    (.send s (.globalConst s .stringBuilder) .newName [])) .toS []

variable {s : Span} {type : TypeId} {t : Symbol}

theorem isArrayForm (s : Span) (type : TypeId) (t : Symbol) (elements : List Node) :
    IsArrayForm s type t elements (arrayCapacity elements.length)
      (elements.mapIdx fun i e => .send e.span (.send e.span (.temp e.span t) .buffer []) .indexSet
        [.int e.span i, e])
      (.seq s (Pending.arrayStatements s (.atom s (.generic type)) t elements)) where
  statements := by simp [Pending.arrayStatements]
  least := isLeast_arrayCapacity elements.length
  length := List.length_mapIdx
  write i h := by
    have hRoom := (isLeast_arrayCapacity elements.length).1.1
    refine ⟨h.trans_le ((le_max_right _ _).trans hRoom), ?_⟩
    rw [List.getElem?_mapIdx, List.getElem?_eq_getElem h, Option.map_some]

theorem isHashForm (s : Span) (type : TypeId) (t : Symbol) (entries : List (HashEntry Node)) :
    IsHashForm s type t entries
      (entries.map fun e => .send (e.key.span.merge e.value.span)
        (.temp (e.key.span.merge e.value.span) t) .indexSet [e.key, e.value])
      (.seq s (Pending.hashStatements s (.send s (.atom s (.generic type)) .newName []) t
        entries)) where
  statements := by simp [Pending.hashStatements]
  length := List.length_map _
  write i h := ⟨_, by rw [List.getElem?_map, List.getElem?_eq_getElem h, Option.map_some]⟩

/-! ## Trees that do not mention the temporary -/

variable {I : Interp V} {key : Var → K} {rounds : Nat}

theorem leaves_store {n : Node} (h : ¬ n.HasTemp t) (v : V) :
    (n.store key v).Leaves fun m => m.temps t := by
  unfold Node.store
  split
  · exact Eval.leaves_ite (Eval.leaves_throw _) fun _ => rfl
  · rename_i t'
    have hOther : t ≠ t' := fun hEq => h (hasTemp_temp.mpr hEq)
    intro m
    show Function.update m.temps t' v t = m.temps t
    exact Function.update_of_ne hOther v m.temps
  · exact fun _ => rfl
  · exact Eval.leaves_throw _

theorem leaves_runBlock (I : Interp V) (params : List K) {body : Option (Eval K V V)}
    (h : ∀ d ∈ body, d.Leaves fun m => m.temps t) (args : List V) :
    (Eval.runBlock I params body args).Leaves fun m => m.temps t := by
  have hBind : ∀ (ks : List K) (args : List V),
      (Eval.bindParams I ks args).Leaves fun m => m.temps t := by
    intro ks
    induction ks with
    | nil => exact fun _ => Eval.leaves_pure _
    | cons k ks ih => exact fun args => Eval.Leaves.bind (fun _ => rfl) fun _ => ih _
  refine Eval.Leaves.bind (fun _ => rfl) fun m => (hBind params args).bind fun _ =>
    (Eval.leaves_branch I h).attempt.bind fun exit => Eval.Leaves.bind (fun _ => rfl) fun _ => ?_
  split
  · exact Eval.leaves_pure _
  · exact Eval.leaves_pure _
  · exact Eval.leaves_throw _

theorem sheltered_temp (I : Interp V) (key : Var → K) (t : Symbol) :
    Sheltered I key (fun m => m.temps t) fun n => ¬ n.HasTemp t where
  inward := Eval.inward_temps t
  block params _ hBody := leaves_runBlock I params hBody
  part _ h _ _ hm hTemp := h (.of_part hm hTemp)
  assign _ _ _ h := leaves_store fun hTemp => h (.of_part (.head _) hTemp)
  multi _ _ _ h _ ht := leaves_store fun hTemp => h (.of_part (List.mem_append_left _ ht) hTemp)

/-! ## What the forms mean -/

theorem meaning_send (s : Span) (receiver : Node) (name : Symbol) (args : List Node) :
    (Node.send s receiver name args).meaning I key rounds =
      receiver.meaning I key rounds >>= fun r =>
        Eval.all (args.map (Node.meaning I key rounds)) >>= fun vs => Eval.send I r name vs := by
  rw [Node.send, Node.meaning, listMeaning_eq_map, Eval.call, optionMeaning, Eval.optional,
    bind_assoc]
  exact bind_congr fun r => pure_bind _ _

theorem meaning_temp (s : Span) (t : Symbol) :
    (Node.temp s t).meaning I key rounds = Eval.readTemp t := rfl

theorem meaning_int (s : Span) (k : Int) :
    (Node.int s k).meaning I key rounds = pure (I.literal (.int k)) := rfl

theorem meaning_seq (s : Span) (stmts : List Node) :
    (Node.seq s stmts).meaning I key rounds =
      Eval.seq I (stmts.map (Node.meaning I key rounds)) := by
  rw [Node.meaning, listMeaning_eq_map]

theorem meaning_write (s : Span) (t : Symbol) (i : Nat) (e : Node) :
    (Node.send s (.send s (.temp s t) .buffer []) .indexSet [.int s i, e]).meaning I key rounds =
      Eval.readTemp t >>= Eval.fillIndex I i (e.meaning I key rounds) := by
  simp only [meaning_send, meaning_temp, meaning_int, List.map_nil, List.map_cons, Eval.all,
    pure_bind, bind_assoc]
  rfl

theorem meaning_entry (s : Span) (t : Symbol) (e : HashEntry Node) :
    (Node.send s (.temp s t) .indexSet [e.key, e.value]).meaning I key rounds =
      Eval.readTemp t >>=
        Eval.fillEntry I ⟨e.key.meaning I key rounds, e.value.meaning I key rounds⟩ := by
  simp only [meaning_send, meaning_temp, List.map_nil, List.map_cons, Eval.all, pure_bind,
    bind_assoc]
  rfl

theorem meaning_save (s : Span) (t : Symbol) (n : Node) :
    (Node.assign s (.temp s t) n).meaning I key rounds =
      Eval.assign (Eval.writeTemp t) (n.meaning I key rounds) := rfl

theorem meaning_generic (s : Span) (type : TypeId) :
    (Node.atom s (.generic type)).meaning I key rounds = pure (I.literal (.generic type)) := rfl

theorem leaves_of_not_hasTemp {n : Node} (h : ¬ n.HasTemp t) :
    (n.meaning I key rounds).Leaves fun m => m.temps t :=
  n.leaves_meaning (sheltered_temp I key t) rounds h

/-- The array is made once, and then each element is evaluated and written in turn. -/
theorem meaning_arrayForm {elements : List Node} (h : ∀ e ∈ elements, ¬ e.HasTemp t) :
    (Node.seq s (Pending.arrayStatements s (.atom s (.generic type)) t elements)).meaning I key
        rounds =
      Eval.buildArray I t (I.literal (.generic type)) (arrayCapacity elements.length)
        (elements.map (Node.meaning I key rounds)) := by
  have hSend : ∀ r name args, (Eval.send I r name args : Eval K V V).Leaves fun m => m.temps t :=
    Eval.leaves_send I (Eval.inward_temps t)
  have hWrites : (elements.mapIdx fun i e => Node.send e.span
      (.send e.span (.temp e.span t) .buffer []) .indexSet [.int e.span i, e]).map
        (Node.meaning I key rounds) =
      ((elements.map (Node.meaning I key rounds)).mapIdx (Eval.fillIndex I)).map
        (fun step => Eval.readTemp t >>= step) :=
    List.ext_getElem (by simp) fun i _ _ => by simp [meaning_write]
  rw [meaning_seq, Eval.buildArray, ← Eval.seq_build I]
  · simp only [Pending.arrayStatements, List.cons_append, List.nil_append, List.map_cons,
      List.map_append, hWrites, List.map_nil, meaning_save, meaning_generic, meaning_send,
      meaning_temp, meaning_int, Eval.all, pure_bind, List.length_map]
  · refine List.forall_mem_cons.mpr ⟨fun array => hSend _ _ _, fun step hStep => ?_⟩
    obtain ⟨i, hi, rfl⟩ := List.mem_mapIdx.mp hStep
    rw [List.length_map] at hi
    have hElement : (elements[i].meaning I key rounds).Leaves fun m => m.temps t :=
      leaves_of_not_hasTemp (h _ (List.getElem_mem hi))
    rw [List.getElem_map]
    exact fun array => (hSend _ _ _).bind fun _ => hElement.bind fun _ => hSend _ _ _

/-- The hash is made once, and then each entry is evaluated, key first, and assigned in turn. -/
theorem meaning_hashForm {entries : List (HashEntry Node)}
    (h : ∀ e ∈ entries, ¬ e.key.HasTemp t ∧ ¬ e.value.HasTemp t) :
    (Node.seq s (Pending.hashStatements s (.send s (.atom s (.generic type)) .newName []) t
        entries)).meaning I key rounds =
      Eval.buildHash I t (I.literal (.generic type))
        (entries.map fun e => ⟨e.key.meaning I key rounds, e.value.meaning I key rounds⟩) := by
  have hWrites : (entries.map fun e => Node.send (e.key.span.merge e.value.span)
      (.temp (e.key.span.merge e.value.span) t) .indexSet [e.key, e.value]).map
        (Node.meaning I key rounds) =
      ((entries.map fun e => ⟨e.key.meaning I key rounds, e.value.meaning I key rounds⟩).map
        (Eval.fillEntry I)).map (fun step => Eval.readTemp t >>= step) := by
    simp [meaning_entry]
  rw [meaning_seq, Eval.buildHash, ← Eval.seq_build I]
  · simp only [Pending.hashStatements, List.cons_append, List.nil_append, List.map_cons,
      List.map_append, hWrites, List.map_nil, meaning_save, meaning_send, meaning_generic,
      meaning_temp, Eval.all, pure_bind]
  · intro step hStep hash
    obtain ⟨e, he, rfl⟩ : ∃ e ∈ entries, Eval.fillEntry I
        ⟨e.key.meaning I key rounds, e.value.meaning I key rounds⟩ = step := by
      simpa using hStep
    obtain ⟨hKey, hValue⟩ := h e he
    exact (leaves_of_not_hasTemp hKey).bind fun _ => (leaves_of_not_hasTemp hValue).bind fun _ =>
      Eval.leaves_send I (Eval.inward_temps t) _ _ _

/-- Each piece is evaluated and appended in turn. -/
theorem meaning_textForm (s : Span) (pieces : List Node) :
    (textForm s pieces).meaning I key rounds =
      Eval.buildText I (pieces.map (Node.meaning I key rounds)) := by
  have hAppend : ∀ text : Node, (pieces.foldl (fun text piece => Node.send s text .append [piece])
      text).meaning I key rounds = text.meaning I key rounds >>= fun v =>
        Eval.appendAll I v (pieces.map (Node.meaning I key rounds)) := by
    induction pieces with
    | nil => exact fun text => (bind_pure _).symm
    | cons piece pieces ih =>
      intro text
      rw [List.foldl_cons, ih, meaning_send, bind_assoc]
      simp only [List.map_cons, List.map_nil, Eval.all, pure_bind, bind_assoc, Eval.appendAll]
  rw [textForm, meaning_send, hAppend, meaning_send]
  simp only [List.map_nil, Eval.all, pure_bind, bind_assoc]
  exact pure_bind _ _

/-! ## Forms that build -/

/-- The tree has the form of an array that it keeps in a temporary, which no element mentions, and
it runs as the building of that array whatever the interpretation. A buffer for up to `2 ^ 62`
elements has a capacity that a machine integer holds. -/
def BuildsArray (s : Span) (elements : List Node) (n : Node) : Prop :=
  ∃ type t capacity writes, n.IsArrayForm s type t elements capacity writes ∧
    (elements.length ≤ 2 ^ 62 → capacity ≤ 2 ^ 62) ∧ (∀ e ∈ elements, ¬ e.HasTemp t) ∧
    ∀ (V : Type) (I : Interp V) (rounds : Nat), n.versioned I rounds =
      Eval.buildArray I t (I.literal (.generic type)) capacity
        (elements.map (Node.versioned I rounds))

/-- A hash of the entries, filled through a temporary that no entry mentions. -/
def BuildsHash (s : Span) (entries : List (HashEntry Node)) (n : Node) : Prop :=
  ∃ type t writes, n.IsHashForm s type t entries writes ∧
    (∀ e ∈ entries, ¬ e.key.HasTemp t ∧ ¬ e.value.HasTemp t) ∧
    ∀ (V : Type) (I : Interp V) (rounds : Nat), n.versioned I rounds =
      Eval.buildHash I t (I.literal (.generic type))
        (entries.map fun e => ⟨e.key.versioned I rounds, e.value.versioned I rounds⟩)

def BuildsText (s : Span) (pieces : List Node) (n : Node) : Prop :=
  n = textForm s pieces ∧ ∀ (V : Type) (I : Interp V) (rounds : Nat),
    n.versioned I rounds = Eval.buildText I (pieces.map (Node.versioned I rounds))

theorem buildsArray (s : Span) (type : TypeId) {elements : List Node}
    (h : ∀ e ∈ elements, ¬ e.HasTemp t) :
    (Node.seq s (Pending.arrayStatements s (.atom s (.generic type)) t elements)).BuildsArray s
      elements := by
  have hForm := isArrayForm s type t elements
  refine ⟨type, t, _, _, hForm, fun hFew => hForm.least.2 ⟨max_le (by decide) hFew, 62, rfl⟩, h,
    fun V I rounds => meaning_arrayForm h⟩

theorem buildsHash (s : Span) (type : TypeId) {entries : List (HashEntry Node)}
    (h : ∀ e ∈ entries, ¬ e.key.HasTemp t ∧ ¬ e.value.HasTemp t) :
    (Node.seq s (Pending.hashStatements s (.send s (.atom s (.generic type)) .newName []) t
      entries)).BuildsHash s entries :=
  ⟨type, t, _, isHashForm s type t entries, h, fun _ _ _ => meaning_hashForm h⟩

theorem buildsText (s : Span) (pieces : List Node) : (textForm s pieces).BuildsText s pieces :=
  ⟨rfl, fun _ _ _ => meaning_textForm s pieces⟩

end Node

end CoreTree
