/-!
# Keys

Types whose values are kept in order.  The order is total and strict; texts
are ordered by the numbers of their characters.
-/

namespace Rtti

/-- A type with a strict linear order. -/
class Key (κ : Type) where
  /-- Whether a key comes before another. -/
  precedes : κ → κ → Bool
  irrefl : ∀ a, precedes a a = false
  trans : ∀ {a b c}, precedes a b = true → precedes b c = true → precedes a c = true
  trichotomy : ∀ a b, precedes a b = true ∨ a = b ∨ precedes b a = true

namespace Key

/-- Whether a list of characters comes before another: at the first
difference it has the smaller character, or it ends. -/
def charsPrecede : List Char → List Char → Bool
  | _, [] => false
  | [], _ :: _ => true
  | c :: cs, d :: ds => c.toNat < d.toNat || (c.toNat = d.toNat && charsPrecede cs ds)

theorem charsPrecede_irrefl (cs : List Char) : charsPrecede cs cs = false := by
  induction cs with
  | nil => rfl
  | cons c cs ih => simp [charsPrecede, ih]

theorem charsPrecede_trans {as bs cs : List Char} (h₁ : charsPrecede as bs = true)
    (h₂ : charsPrecede bs cs = true) : charsPrecede as cs = true := by
  induction as generalizing bs cs with
  | nil =>
    cases cs with
    | nil => cases bs <;> simp [charsPrecede] at h₂
    | cons c cs => rfl
  | cons a as ih =>
    match bs, cs with
    | [], _ => simp [charsPrecede] at h₁
    | _ :: _, [] => simp [charsPrecede] at h₂
    | b :: bs, c :: cs =>
      simp only [charsPrecede, Bool.or_eq_true, Bool.and_eq_true, decide_eq_true_eq] at *
      rcases h₁ with h₁ | ⟨h₁, r₁⟩ <;> rcases h₂ with h₂ | ⟨h₂, r₂⟩
      · exact .inl (by omega)
      · exact .inl (by omega)
      · exact .inl (by omega)
      · exact .inr ⟨by omega, ih r₁ r₂⟩

theorem charsPrecede_trichotomy (as bs : List Char) :
    charsPrecede as bs = true ∨ as = bs ∨ charsPrecede bs as = true := by
  induction as generalizing bs with
  | nil => cases bs <;> simp [charsPrecede]
  | cons a as ih =>
    cases bs with
    | nil => simp [charsPrecede]
    | cons b bs =>
      simp only [charsPrecede, Bool.or_eq_true, Bool.and_eq_true, decide_eq_true_eq,
        List.cons.injEq]
      rcases Nat.lt_trichotomy a.toNat b.toNat with h | h | h
      · exact .inl (.inl h)
      · have e : a = b := Char.toNat_inj.1 h
        rcases ih bs with r | r | r
        · exact .inl (.inr ⟨h, r⟩)
        · exact .inr (.inl ⟨e, r⟩)
        · exact .inr (.inr (.inr ⟨h.symm, r⟩))
      · exact .inr (.inr (.inl h))

instance : Key String where
  precedes a b := charsPrecede a.toList b.toList
  irrefl a := charsPrecede_irrefl a.toList
  trans h₁ h₂ := charsPrecede_trans h₁ h₂
  trichotomy a b := by
    rw [← String.toList_inj]
    exact charsPrecede_trichotomy a.toList b.toList

end Key

end Rtti
