import FormEdit.Text.Numeral

/-!
# Numerals and numbers

A text is read as a number if and only if the number is below the limit and the text is its decimal
form, perhaps with zeros in front of it and a plus sign in front of these (`read_eq_ok`).
-/

namespace FormEdit.Text.Numeral

/-- The decimal form of a number. -/
def Decimal (n : Nat) (text : String) : Prop := text = toString n

/-- The decimal form of a number, or that with a plus sign, zeros or both in front. -/
def Loose (n : Nat) (text : String) : Prop :=
  ∃ sign zeros, (sign = "" ∨ sign = "+") ∧
  text = sign ++ String.ofList (List.replicate zeros '0') ++ toString n

/-- The decimal digits of a number with any number of zeros in front. -/
def Digits (n : Nat) (cs : List Char) : Prop :=
  ∃ zeros, cs = List.replicate zeros '0' ++ Nat.toDigits 10 n

variable {n limit value : Nat} {cs ds : List Char} {c : Char} {d : Nat}

theorem Decimal.loose {text : String} (decimal : Decimal n text) : Loose n text := by
  refine ⟨"", 0, .inl rfl, ?_⟩
  rw [decimal]
  simp

theorem loose_ofList : Loose n (String.ofList cs) ↔ Digits n cs ∨ ∃ ds, cs = '+' :: ds ∧
    Digits n ds := by
  have spelled (sign : String) (zeros : Nat) : String.ofList cs =
      sign ++ String.ofList (List.replicate zeros '0') ++ toString n ↔
        cs = sign.toList ++ (List.replicate zeros '0' ++ Nat.toDigits 10 n) := by
    rw [← String.toList_inj]
    simp
  constructor
  · rintro ⟨sign, zeros, rfl | rfl, text⟩
    · exact .inl ⟨zeros, (spelled "" zeros).mp text⟩
    · exact .inr ⟨_, (spelled "+" zeros).mp text, zeros, rfl⟩
  · rintro (⟨zeros, digits⟩ | ⟨_, signed, zeros, rfl⟩)
    · exact ⟨"", zeros, .inl rfl, (spelled "" zeros).mpr digits⟩
    · exact ⟨"+", zeros, .inr rfl, (spelled "+" zeros).mpr signed⟩

theorem Digits.ne_nil (digits : Digits n cs) : cs ≠ [] := by
  obtain ⟨zeros, rfl⟩ := digits
  simp [Nat.toDigits_ne_nil]

theorem Digits.isDigit (digits : Digits n cs) : ∀ c ∈ cs, c.isDigit = true := by
  obtain ⟨zeros, rfl⟩ := digits
  intro c mem
  rcases List.mem_append.mp mem with mem | mem
  · rw [List.eq_of_mem_replicate mem]
    rfl
  · exact Nat.isDigit_of_mem_toDigits (by decide) (by decide) mem

/-- What is neither a digit nor a plus sign stands in no numeral. -/
theorem Loose.not_mem {text : String} (loose : Loose n text) (digit : c.isDigit = false)
    (plus : c ≠ '+') :
    c ∉ text.toList := by
  intro mem
  rw [← String.ofList_toList (s := text), loose_ofList] at loose
  rcases loose with digits | ⟨ds, signed, digits⟩
  · simp [digits.isDigit c mem] at digit
  · rw [signed, List.mem_cons] at mem
    rcases mem with same | mem
    · exact plus same
    · simp [digits.isDigit c mem] at digit

theorem Loose.ne_empty {text : String} (loose : Loose n text) : text.toList ≠ [] := by
  intro empty
  rw [← String.ofList_toList (s := text), empty, loose_ofList] at loose
  rcases loose with digits | ⟨ds, signed, -⟩
  · exact digits.ne_nil rfl
  · cases signed

/-! ## Digits -/

theorem digit?_eq_some : digit? c = some d ↔ d < 10 ∧ c = Nat.digitChar d := by
  constructor
  · intro digit
    unfold digit? at digit
    split at digit
    next bounds =>
      have low : 48 ≤ c.toNat := bounds.1
      have high : c.toNat ≤ 57 := bounds.2
      have value : c.toNat - 48 = d := Option.some.inj digit
      refine ⟨by omega, ?_⟩
      rw [← Char.toNat_inj, Nat.toNat_digitChar_of_lt_ten (by omega)]
      omega
    next => cases digit
  · rintro ⟨bound, rfl⟩
    have each : ∀ d < 10, digit? (Nat.digitChar d) = some d := by decide
    exact each d bound

/-- A digit that is read is put behind those of the value so far. -/
theorem readDigits_cons : readDigits limit value (c :: cs) = .ok n ↔
    ∃ d, d < 10 ∧ c = Nat.digitChar d ∧ 10 * value + d < limit ∧
    readDigits limit (10 * value + d) cs = .ok n := by
  rw [readDigits]
  cases digit : digit? c with
  | none =>
    refine iff_of_false (by simp) ?_
    rintro ⟨d, bound, same, -⟩
    rw [digit?_eq_some.mpr ⟨bound, same⟩] at digit
    cases digit
  | some d =>
    obtain ⟨bound, rfl⟩ := digit?_eq_some.mp digit
    dsimp only
    rw [Nat.mul_comm value 10]
    constructor
    · intro ran
      split at ran
      next fits => exact ⟨d, bound, rfl, fits, ran⟩
      next => cases ran
    · rintro ⟨e, bound', same, fits, ran⟩
      have equal := digit?_eq_some.mpr ⟨bound', same⟩
      cases digit.symm.trans equal
      rw [if_pos fits, ran]

theorem readDigits_append (limit value : Nat) (cs ds : List Char) :
    readDigits limit value (cs ++ ds) =
    (readDigits limit value cs).bind fun value => readDigits limit value ds := by
  induction cs generalizing value with
  | nil => rfl
  | cons c cs ih =>
    simp only [List.cons_append, readDigits]
    split
    next => rfl
    next d _ =>
      split
      next => exact ih (value * 10 + d)
      next => rfl

theorem readDigits_toDigits (fits : n < limit) :
    readDigits limit 0 (Nat.toDigits 10 n) = .ok n := by
  induction n using Nat.strongRecOn with
  | ind n ih =>
    rw [Nat.toDigits_eq_if (by decide)]
    split
    next small => exact readDigits_cons.mpr ⟨n, small, rfl, by omega, by simp [readDigits]⟩
    next large =>
      have whole : 10 * (n / 10) + n % 10 = n := Nat.div_add_mod n 10
      rw [readDigits_append, ih (n / 10) (by omega) (by omega)]
      refine readDigits_cons.mpr ⟨n % 10, Nat.mod_lt n (by decide), rfl, by omega, ?_⟩
      rw [whole, readDigits]

/-- Digits behind a positive value are those behind its own digits. Zero is left out since it has a
digit of its own. -/
theorem toDigits_append_of_readDigits (positive : 0 < value)
    (ran : readDigits limit value cs = .ok n) :
    Nat.toDigits 10 value ++ cs = Nat.toDigits 10 n := by
  induction cs generalizing value with
  | nil =>
    cases ran
    exact List.append_nil _
  | cons c cs ih =>
    obtain ⟨d, bound, rfl, -, rest⟩ := readDigits_cons.mp ran
    have longer : 0 < 10 * value + d := by omega
    have step : Nat.toDigits 10 value ++ [Nat.digitChar d] = Nat.toDigits 10 (10 * value + d) := by
      rw [← Nat.toDigits_of_lt_base bound]
      exact Nat.toDigits_append_toDigits (by decide) positive bound
    rw [List.append_cons, step]
    exact ih longer rest

theorem readDigits_lt (below : value < limit) (ran : readDigits limit value cs = .ok n) :
    n < limit := by
  induction cs generalizing value with
  | nil =>
    cases ran
    exact below
  | cons c cs ih =>
    obtain ⟨d, -, -, fits, rest⟩ := readDigits_cons.mp ran
    exact ih fits rest

theorem digits_of_readDigits (nonempty : cs ≠ []) (ran : readDigits limit 0 cs = .ok n) :
    n < limit ∧ Digits n cs := by
  induction cs with
  | nil => exact absurd rfl nonempty
  | cons c cs ih =>
    obtain ⟨d, bound, rfl, fits, rest⟩ := readDigits_cons.mp ran
    rw [Nat.mul_zero, Nat.zero_add] at fits rest
    refine ⟨readDigits_lt fits rest, ?_⟩
    -- Zeros in front leave the value at zero; the first other digit begins the decimal form.
    by_cases zero : d = 0
    · subst zero
      by_cases last : cs = []
      · subst last
        cases rest
        exact ⟨0, rfl⟩
      · obtain ⟨-, zeros, digits⟩ := ih last rest
        refine ⟨zeros + 1, ?_⟩
        rw [List.replicate_succ, List.cons_append, ← digits]
        rfl
    · refine ⟨0, ?_⟩
      have whole := toDigits_append_of_readDigits (Nat.pos_of_ne_zero zero) rest
      rw [Nat.toDigits_of_lt_base bound] at whole
      exact whole

theorem readDigits_eq_ok (nonempty : cs ≠ []) :
    readDigits limit 0 cs = .ok n ↔ n < limit ∧ Digits n cs := by
  constructor
  · exact digits_of_readDigits nonempty
  · rintro ⟨fits, zeros, rfl⟩
    clear nonempty
    induction zeros with
    | zero => exact readDigits_toDigits fits
    | succ zeros ih => exact readDigits_cons.mpr ⟨0, by decide, rfl, Nat.zero_lt_of_lt fits, ih⟩

/-! ## Numerals -/

theorem read_unsigned (nonempty : cs ≠ []) (unsigned : '+' ∉ cs) :
    read limit cs = readDigits limit 0 cs := by
  cases cs with
  | nil => exact absurd rfl nonempty
  | cons c cs =>
    have other : c ≠ '+' := by
      rintro rfl
      exact unsigned List.mem_cons_self
    unfold read
    split <;> simp_all

theorem read_signed (nonempty : cs ≠ []) : read limit ('+' :: cs) = readDigits limit 0 cs := by
  cases cs with
  | nil => exact absurd rfl nonempty
  | cons c cs => rfl

theorem read_eq_ok : read limit cs = .ok n ↔ n < limit ∧ Loose n (String.ofList cs) := by
  rw [loose_ofList]
  constructor
  · intro ran
    unfold read at ran
    split at ran
    next => cases ran
    next => cases ran
    next digits nonempty =>
      obtain ⟨fits, digits⟩ := digits_of_readDigits (by rintro rfl; exact nonempty rfl) ran
      exact ⟨fits, .inr ⟨_, rfl, digits⟩⟩
    next nonempty _ _ =>
      obtain ⟨fits, digits⟩ := digits_of_readDigits nonempty ran
      exact ⟨fits, .inl digits⟩
  · rintro ⟨fits, digits | ⟨ds, rfl, digits⟩⟩
    · have unsigned : '+' ∉ cs := fun mem => by simpa using digits.isDigit '+' mem
      rw [read_unsigned digits.ne_nil unsigned, readDigits_eq_ok digits.ne_nil]
      exact ⟨fits, digits⟩
    · rw [read_signed digits.ne_nil, readDigits_eq_ok digits.ne_nil]
      exact ⟨fits, digits⟩

end FormEdit.Text.Numeral
