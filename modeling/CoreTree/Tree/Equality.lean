import CoreTree.Tree.Basic

/-! # Equality of trees

Two trees are equal if they are built alike and every span in them agrees. The comparison
`Node.same` walks both at once; `Node.same_iff` makes it a decision procedure for equality.
-/
namespace CoreTree
set_option autoImplicit false

mutual
def Node.same : Node → Node → Bool
  | .atom s a, n => match n with
    | .atom t b => s = t ∧ a = b
    | _ => false
  | .var s v, n => match n with
    | .var t w => s = t ∧ v = w
    | _ => false
  | .seq s xs, n => match n with
    | .seq t ys => s = t && sameList xs ys
    | _ => false
  | .cond s f c x y, n => match n with
    | .cond t g d u v => (s = t ∧ f = g) && c.same d && sameOption x u && sameOption y v
    | _ => false
  | .loop s c x, n => match n with
    | .loop t d u => s = t && c.same d && sameOption x u
    | _ => false
  | .choose s c ws x, n => match n with
    | .choose t d vs u => s = t && c.same d && sameWhens ws vs && sameOption x u
    | _ => false
  | .logic s f x y, n => match n with
    | .logic t g u v => (s = t ∧ f = g) && x.same u && y.same v
    | _ => false
  | .jump s f x, n => match n with
    | .jump t g u => (s = t ∧ f = g) && sameOption x u
    | _ => false
  | .assign s x y, n => match n with
    | .assign t u v => s = t && x.same u && y.same v
    | _ => false
  | .multi s xs ys, n => match n with
    | .multi t us vs => s = t && sameList xs us && sameList ys vs
    | _ => false
  | .call s r f xs none, n => match n with
    | .call t q g us none => (s = t ∧ f = g) && sameOption r q && sameList xs us
    | _ => false
  | .call s r f xs (some ⟨ps, x⟩), n => match n with
    | .call t q g us (some ⟨qs, u⟩) =>
      (s = t ∧ f = g ∧ ps = qs) && sameOption r q && sameList xs us && sameOption x u
    | _ => false
  | .isA s x p, n => match n with
    | .isA t u q => (s = t ∧ p = q) && x.same u
    | _ => false
  | .define s f m ps x, n => match n with
    | .define t g k qs u => (s = t ∧ f = g ∧ m = k) && sameParams ps qs && sameOption x u
    | _ => false
  | .interp s xs, n => match n with
    | .interp t us => s = t && sameList xs us
    | _ => false
  | .range s x y f, n => match n with
    | .range t u v g => (s = t ∧ f = g) && x.same u && y.same v
    | _ => false
  | .regex s f, n => match n with
    | .regex t g => s = t ∧ f = g
    | _ => false
  | .array s xs f, n => match n with
    | .array t us g => (s = t ∧ f = g) && sameList xs us
    | _ => false
  | .hash s xs f, n => match n with
    | .hash t us g => (s = t ∧ f = g) && sameEntries xs us
    | _ => false
  | .require s f, n => match n with
    | .require t g => s = t ∧ f = g
    | _ => false
termination_by structural a => a

def sameOption : Option Node → Option Node → Bool
  | none, none => true
  | some x, some y => x.same y
  | _, _ => false
termination_by structural a => a

def sameList : List Node → List Node → Bool
  | [], [] => true
  | x :: xs, y :: ys => x.same y && sameList xs ys
  | _, _ => false
termination_by structural a => a

def sameWhens : List (When Node) → List (When Node) → Bool
  | [], [] => true
  | ⟨ps, x⟩ :: ws, ⟨qs, y⟩ :: vs => sameList ps qs && sameOption x y && sameWhens ws vs
  | _, _ => false
termination_by structural a => a

def sameParams : List (Param Node) → List (Param Node) → Bool
  | [], [] => true
  | ⟨p, x⟩ :: ps, ⟨q, y⟩ :: qs => p = q && sameOption x y && sameParams ps qs
  | _, _ => false
termination_by structural a => a

def sameEntries : List (HashEntry Node) → List (HashEntry Node) → Bool
  | [], [] => true
  | ⟨j, x⟩ :: es, ⟨k, y⟩ :: fs => j.same k && x.same y && sameEntries es fs
  | _, _ => false
termination_by structural a => a
end

mutual
theorem Node.same_self : ∀ a : Node, a.same a = true
  | .atom .. | .var .. | .regex .. | .require .. => by simp [Node.same]
  | .seq _ xs | .interp _ xs => by simp [Node.same, sameList_self xs]
  | .cond _ _ c x y => by simp [Node.same, Node.same_self c, sameOption_self x, sameOption_self y]
  | .loop _ c x => by simp [Node.same, Node.same_self c, sameOption_self x]
  | .choose _ c ws x => by
    simp [Node.same, Node.same_self c, sameWhens_self ws, sameOption_self x]
  | .logic _ _ x y | .assign _ x y | .range _ x y _ => by
    simp [Node.same, Node.same_self x, Node.same_self y]
  | .jump _ _ x => by simp [Node.same, sameOption_self x]
  | .multi _ xs ys => by simp [Node.same, sameList_self xs, sameList_self ys]
  | .call _ r _ xs none => by simp [Node.same, sameOption_self r, sameList_self xs]
  | .call _ r _ xs (some ⟨ps, x⟩) => by
    simp [Node.same, sameOption_self r, sameList_self xs, sameOption_self x]
  | .isA _ x _ => by simp [Node.same, Node.same_self x]
  | .define _ _ _ ps x => by simp [Node.same, sameParams_self ps, sameOption_self x]
  | .array _ xs _ => by simp [Node.same, sameList_self xs]
  | .hash _ es _ => by simp [Node.same, sameEntries_self es]

theorem sameOption_self : ∀ a : Option Node, sameOption a a = true
  | none => by simp [sameOption]
  | some x => by simp [sameOption, Node.same_self x]

theorem sameList_self : ∀ a : List Node, sameList a a = true
  | [] => rfl
  | x :: xs => by simp [sameList, Node.same_self x, sameList_self xs]

theorem sameWhens_self : ∀ a : List (When Node), sameWhens a a = true
  | [] => rfl
  | ⟨ps, x⟩ :: ws => by simp [sameWhens, sameList_self ps, sameOption_self x, sameWhens_self ws]

theorem sameParams_self : ∀ a : List (Param Node), sameParams a a = true
  | [] => rfl
  | ⟨_, x⟩ :: ps => by simp [sameParams, sameOption_self x, sameParams_self ps]

theorem sameEntries_self : ∀ a : List (HashEntry Node), sameEntries a a = true
  | [] => rfl
  | ⟨k, x⟩ :: es => by
    simp [sameEntries, Node.same_self k, Node.same_self x, sameEntries_self es]
end

mutual
theorem Node.eq_of_same : ∀ a b : Node, a.same b = true → a = b
  | .atom .., b, h | .var .., b, h | .regex .., b, h | .require .., b, h => by
    unfold Node.same at h
    split at h <;> simp_all
  | .seq _ xs, b, h | .interp _ xs, b, h => by
    unfold Node.same at h
    split at h
    · simp only [Bool.and_eq_true, decide_eq_true_eq] at h
      rw [h.1, eq_of_sameList xs _ h.2]
    · cases h
  | .cond _ _ c x y, b, h => by
    unfold Node.same at h
    split at h
    · simp only [Bool.and_eq_true, decide_eq_true_eq] at h
      obtain ⟨⟨⟨⟨rfl, rfl⟩, hTest⟩, hBody⟩, hOther⟩ := h
      rw [Node.eq_of_same c _ hTest, eq_of_sameOption x _ hBody, eq_of_sameOption y _ hOther]
    · cases h
  | .loop _ c x, b, h => by
    unfold Node.same at h
    split at h
    · simp only [Bool.and_eq_true, decide_eq_true_eq] at h
      rw [h.1.1, Node.eq_of_same c _ h.1.2, eq_of_sameOption x _ h.2]
    · cases h
  | .choose _ c ws x, b, h => by
    unfold Node.same at h
    split at h
    · simp only [Bool.and_eq_true, decide_eq_true_eq] at h
      obtain ⟨⟨⟨rfl, hSubject⟩, hWhens⟩, hOther⟩ := h
      rw [Node.eq_of_same c _ hSubject, eq_of_sameWhens ws _ hWhens, eq_of_sameOption x _ hOther]
    · cases h
  | .logic _ _ x y, b, h | .range _ x y _, b, h => by
    unfold Node.same at h
    split at h
    · simp only [Bool.and_eq_true, decide_eq_true_eq] at h
      obtain ⟨⟨⟨rfl, rfl⟩, hLeft⟩, hRight⟩ := h
      rw [Node.eq_of_same x _ hLeft, Node.eq_of_same y _ hRight]
    · cases h
  | .jump _ _ x, b, h => by
    unfold Node.same at h
    split at h
    · simp only [Bool.and_eq_true, decide_eq_true_eq] at h
      rw [h.1.1, h.1.2, eq_of_sameOption x _ h.2]
    · cases h
  | .assign _ x y, b, h => by
    unfold Node.same at h
    split at h
    · simp only [Bool.and_eq_true, decide_eq_true_eq] at h
      rw [h.1.1, Node.eq_of_same x _ h.1.2, Node.eq_of_same y _ h.2]
    · cases h
  | .multi _ xs ys, b, h => by
    unfold Node.same at h
    split at h
    · simp only [Bool.and_eq_true, decide_eq_true_eq] at h
      rw [h.1.1, eq_of_sameList xs _ h.1.2, eq_of_sameList ys _ h.2]
    · cases h
  | .call _ r _ xs none, b, h => by
    unfold Node.same at h
    split at h
    · simp only [Bool.and_eq_true, decide_eq_true_eq] at h
      obtain ⟨⟨⟨rfl, rfl⟩, hReceiver⟩, hArgs⟩ := h
      rw [eq_of_sameOption r _ hReceiver, eq_of_sameList xs _ hArgs]
    · cases h
  | .call _ r _ xs (some ⟨ps, x⟩), b, h => by
    unfold Node.same at h
    split at h
    · simp only [Bool.and_eq_true, decide_eq_true_eq] at h
      obtain ⟨⟨⟨⟨rfl, rfl, rfl⟩, hReceiver⟩, hArgs⟩, hBody⟩ := h
      rw [eq_of_sameOption r _ hReceiver, eq_of_sameList xs _ hArgs, eq_of_sameOption x _ hBody]
    · cases h
  | .isA _ x _, b, h => by
    unfold Node.same at h
    split at h
    · simp only [Bool.and_eq_true, decide_eq_true_eq] at h
      rw [h.1.1, h.1.2, Node.eq_of_same x _ h.2]
    · cases h
  | .define _ _ _ ps x, b, h => by
    unfold Node.same at h
    split at h
    · simp only [Bool.and_eq_true, decide_eq_true_eq] at h
      obtain ⟨⟨⟨rfl, rfl, rfl⟩, hParams⟩, hBody⟩ := h
      rw [eq_of_sameParams ps _ hParams, eq_of_sameOption x _ hBody]
    · cases h
  | .array _ xs _, b, h => by
    unfold Node.same at h
    split at h
    · simp only [Bool.and_eq_true, decide_eq_true_eq] at h
      rw [h.1.1, h.1.2, eq_of_sameList xs _ h.2]
    · cases h
  | .hash _ es _, b, h => by
    unfold Node.same at h
    split at h
    · simp only [Bool.and_eq_true, decide_eq_true_eq] at h
      rw [h.1.1, h.1.2, eq_of_sameEntries es _ h.2]
    · cases h

theorem eq_of_sameOption : ∀ a b : Option Node, sameOption a b = true → a = b
  | none, none, _ => rfl
  | some x, some y, h => by rw [sameOption] at h; rw [Node.eq_of_same x y h]
  | none, some _, h | some _, none, h => by simp [sameOption] at h

theorem eq_of_sameList : ∀ a b : List Node, sameList a b = true → a = b
  | [], [], _ => rfl
  | x :: xs, y :: ys, h => by
    rw [sameList, Bool.and_eq_true] at h
    rw [Node.eq_of_same x y h.1, eq_of_sameList xs ys h.2]
  | [], _ :: _, h | _ :: _, [], h => by simp [sameList] at h

theorem eq_of_sameWhens : ∀ a b : List (When Node), sameWhens a b = true → a = b
  | [], [], _ => rfl
  | ⟨ps, x⟩ :: ws, ⟨qs, y⟩ :: vs, h => by
    simp only [sameWhens, Bool.and_eq_true] at h
    rw [eq_of_sameList ps qs h.1.1, eq_of_sameOption x y h.1.2, eq_of_sameWhens ws vs h.2]
  | [], _ :: _, h | _ :: _, [], h => by simp [sameWhens] at h

theorem eq_of_sameParams : ∀ a b : List (Param Node), sameParams a b = true → a = b
  | [], [], _ => rfl
  | ⟨p, x⟩ :: ps, ⟨q, y⟩ :: qs, h => by
    simp only [sameParams, Bool.and_eq_true, decide_eq_true_eq] at h
    rw [h.1.1, eq_of_sameOption x y h.1.2, eq_of_sameParams ps qs h.2]
  | [], _ :: _, h | _ :: _, [], h => by simp [sameParams] at h

theorem eq_of_sameEntries : ∀ a b : List (HashEntry Node), sameEntries a b = true → a = b
  | [], [], _ => rfl
  | ⟨j, x⟩ :: es, ⟨k, y⟩ :: fs, h => by
    simp only [sameEntries, Bool.and_eq_true] at h
    rw [Node.eq_of_same j k h.1.1, Node.eq_of_same x y h.1.2, eq_of_sameEntries es fs h.2]
  | [], _ :: _, h | _ :: _, [], h => by simp [sameEntries] at h
end

theorem Node.same_iff (a b : Node) : a.same b = true ↔ a = b :=
  ⟨Node.eq_of_same a b, fun h => h ▸ Node.same_self a⟩

instance : DecidableEq Node := fun a b => decidable_of_iff _ (Node.same_iff a b)

end CoreTree
