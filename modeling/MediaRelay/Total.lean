/-! # Totals of weights -/
namespace MediaRelay
variable {α : Type}

def total (weight : α → Nat) (xs : List α) : Nat := xs.foldr (fun a n => weight a + n) 0

@[simp] theorem total_nil (weight : α → Nat) : total weight [] = 0 := rfl

@[simp] theorem total_cons (weight : α → Nat) (a : α) (xs : List α) :
    total weight (a :: xs) = weight a + total weight xs := rfl

@[simp] theorem total_append (weight : α → Nat) (xs ys : List α) :
    total weight (xs ++ ys) = total weight xs + total weight ys := by
  induction xs with
  | nil => simp
  | cons a rest ih =>
    simp only [List.cons_append, total_cons, ih]
    omega

end MediaRelay
