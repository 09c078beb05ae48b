import EffectHandlers.Settings.Basic
import Mathlib.Data.Nat.Digits.Lemmas
/-!
# Numbers in the environment

The two variables of the environment hold bytes. Those that write a number below 2⁶⁴ in decimal
digits give that number, and everything else gives the default.
-/

namespace EffectHandlers.Settings

/-! ### Texts that write numbers -/

/-- The byte of a decimal digit. -/
def digitByte (d : Nat) : UInt8 := UInt8.ofNat ('0'.toNat + d)

/-- The byte of a plus sign. -/
def plusByte : UInt8 := UInt8.ofNat '+'.toNat

/-- At least one decimal digit, the most significant one first, and the number that they make.
There may be any number of leading zeros. -/
structure Decimal (digits : List Nat) (n : Nat) : Prop where
  nonempty : digits ≠ []
  lt_ten : ∀ d ∈ digits, d < 10
  value : Nat.ofDigits 10 digits.reverse = n

/-- Bytes that write a number: its digits behind an optional plus sign. -/
def Writes (bytes : List UInt8) (n : Nat) : Prop :=
  ∃ digits, Decimal digits n ∧
    (bytes = digits.map digitByte ∨ bytes = plusByte :: digits.map digitByte)

/-- Characters that write a number: its digits behind an optional plus sign. -/
def Spells (cs : List Char) (n : Nat) : Prop :=
  ∃ digits, Decimal digits n ∧
    (cs = digits.map Nat.digitChar ∨ cs = '+' :: digits.map Nat.digitChar)

/-- The number below 2⁶⁴ that a variable holds, if it holds one. -/
def numberOf (value : Option (List UInt8)) : Option Nat := (decode value).bind parseWord?

variable {digits : List Nat} {cs : List Char} {bytes : List UInt8} {text : String} {acc n d : Nat}

/-- The digits are the characters from `0` to `9`. -/
theorem eq_digitChar {c : Char} (hleast : '0' ≤ c) (hgreatest : c ≤ '9') :
    c.toNat - '0'.toNat < 10 ∧ c = Nat.digitChar (c.toNat - '0'.toNat) := by
  have hleast' : '0'.toNat ≤ c.toNat := hleast
  have hgreatest' : c.toNat ≤ '9'.toNat := hgreatest
  have hzero : '0'.toNat = 48 := rfl
  have hnine : '9'.toNat = 57 := rfl
  have hd : c.toNat - '0'.toNat < 10 := by omega
  refine ⟨hd, Char.toNat_inj.mp ?_⟩
  rw [Nat.toNat_digitChar_of_lt_ten hd]
  omega

theorem isDigit_digitChar (hd : d < 10) : '0' ≤ Nat.digitChar d ∧ Nat.digitChar d ≤ '9' := by
  interval_cases d <;> decide

/-- The value of digits whose more significant ones have been read. -/
def valueFrom (acc : Nat) (digits : List Nat) : Nat := digits.foldl (fun a d => a * 10 + d) acc

theorem valueFrom_zero (digits : List Nat) :
    valueFrom 0 digits = Nat.ofDigits 10 digits.reverse := by
  rw [Nat.ofDigits_eq_foldr, List.foldr_reverse]
  simp only [valueFrom, Nat.cast_id, Nat.mul_comm, Nat.add_comm]

theorem digitsValue_map (hdigits : ∀ d ∈ digits, d < 10) (acc : Nat) :
    digitsValue acc (digits.map Nat.digitChar) = some (valueFrom acc digits) := by
  induction digits generalizing acc with
  | nil => rfl
  | cons d digits ih =>
    have hd := hdigits d (List.mem_cons_self ..)
    have hrest := ih (fun e he => hdigits e (List.mem_cons_of_mem _ he)) (acc * 10 + d)
    have hvalue : (Nat.digitChar d).toNat - '0'.toNat = d := by
      rw [Nat.toNat_digitChar_of_lt_ten hd]
      exact Nat.add_sub_cancel_left ..
    rw [List.map_cons, digitsValue, if_pos (isDigit_digitChar hd), hvalue, hrest]
    rfl

theorem exists_digits (h : digitsValue acc cs = some n) :
    ∃ digits : List Nat, cs = digits.map Nat.digitChar ∧ (∀ d ∈ digits, d < 10) ∧
      valueFrom acc digits = n := by
  induction cs generalizing acc with
  | nil => exact ⟨[], rfl, by simp, Option.some.inj h⟩
  | cons c cs ih =>
    rw [digitsValue] at h
    split at h
    · rename_i hc
      obtain ⟨hd, hchar⟩ := eq_digitChar hc.1 hc.2
      obtain ⟨digits, rfl, hdigits, hvalue⟩ := ih h
      refine ⟨(c.toNat - '0'.toNat) :: digits, by rw [List.map_cons, ← hchar], ?_, hvalue⟩
      exact List.forall_mem_cons.mpr ⟨hd, hdigits⟩
    · cases h

/-- Digits without a sign are read as the number that they make. -/
theorem filter_digitsValue_eq_some_iff :
    (if cs.isEmpty then none else (digitsValue 0 cs).filter (· < Word.count)) = some n ↔
      (∃ digits, Decimal digits n ∧ cs = digits.map Nat.digitChar) ∧ n < Word.count := by
  constructor
  · intro h
    split at h
    · cases h
    · rename_i hne
      obtain ⟨hvalue, hlt⟩ := Option.filter_eq_some_iff.mp h
      obtain ⟨digits, rfl, hdigits, hn⟩ := exists_digits hvalue
      exact ⟨⟨digits, ⟨by simpa using hne, hdigits, (valueFrom_zero digits).symm.trans hn⟩, rfl⟩,
        by simpa using hlt⟩
  · rintro ⟨⟨digits, h, rfl⟩, hlt⟩
    rw [if_neg (by simpa using h.nonempty), digitsValue_map h.lt_ten, valueFrom_zero, h.value]
    simp [Option.filter, hlt]

/-- What is read as a number is what writes a number below 2⁶⁴. -/
theorem parseWord?_eq_some_iff :
    parseWord? text = some n ↔ Spells text.toList n ∧ n < Word.count := by
  unfold parseWord?
  split
  · rename_i rest hplus
    rw [filter_digitsValue_eq_some_iff, Spells, hplus]
    refine and_congr_left fun _ => ⟨?_, ?_⟩
    · rintro ⟨digits, h, rfl⟩
      exact ⟨digits, h, .inr rfl⟩
    · rintro ⟨digits, h, htext | htext⟩
      · -- no digit is a plus sign
        cases digits with
        | nil => exact absurd rfl h.nonempty
        | cons d digits =>
          exact absurd (List.cons.inj htext).1.symm (Nat.digitChar_ne '+' rfl)
      · exact ⟨digits, h, (List.cons.inj htext).2⟩
  · rename_i hplus
    rw [filter_digitsValue_eq_some_iff]
    refine and_congr_left fun _ => ⟨?_, ?_⟩
    · rintro ⟨digits, h, htext⟩
      exact ⟨digits, h, .inl htext⟩
    · rintro ⟨digits, h, htext | htext⟩
      · exact ⟨digits, h, htext⟩
      · exact absurd htext (hplus _)

/-! ### The bytes of a text -/

/-- The bytes of a text are those of its characters. -/
theorem toUTF8_eq (text : String) :
    text.toUTF8.data.toList = text.toList.flatMap String.utf8EncodeChar := by
  have hencode : text.toUTF8 = (text.toList.flatMap String.utf8EncodeChar).toByteArray := by
    rw [← List.utf8Encode, ← String.toByteArray_ofList, String.ofList_toList]
    rfl
  rw [hencode, List.toList_data_toByteArray]

/-- A variable holds a text if its bytes are those of the text. -/
theorem decode_eq_some_iff {value : Option (List UInt8)} :
    decode value = some text ↔ value = some text.toUTF8.data.toList := by
  simp only [decode, Option.bind_eq_some_iff, String.fromUTF8?]
  constructor
  · rintro ⟨bytes, rfl, h⟩
    split at h
    · obtain rfl := Option.some.inj h
      rfl
    · cases h
  · rintro rfl
    exact ⟨_, rfl, dif_pos text.isValidUTF8⟩

theorem encode_digits (hdigits : ∀ d ∈ digits, d < 10) :
    (digits.map Nat.digitChar).flatMap String.utf8EncodeChar = digits.map digitByte := by
  have hbyte : ∀ d < 10, String.utf8EncodeChar (Nat.digitChar d) = [digitByte d] := by decide
  induction digits with
  | nil => rfl
  | cons d digits ih =>
    rw [List.map_cons, List.flatMap_cons, hbyte d (hdigits d (List.mem_cons_self ..)),
      ih fun e he => hdigits e (List.mem_cons_of_mem _ he)]
    rfl

theorem encode_plus : String.utf8EncodeChar '+' = [plusByte] := by decide

/-- A variable holds a number if and only if its bytes write one that is small enough. -/
theorem numberOf_eq_some_iff {value : Option (List UInt8)} :
    numberOf value = some n ↔ (∃ bytes, value = some bytes ∧ Writes bytes n) ∧ n < Word.count := by
  simp only [numberOf, Option.bind_eq_some_iff, decode_eq_some_iff, toUTF8_eq,
    parseWord?_eq_some_iff]
  constructor
  · rintro ⟨text, rfl, ⟨digits, h, htext⟩, hlt⟩
    refine ⟨⟨_, rfl, digits, h, ?_⟩, hlt⟩
    rcases htext with htext | htext
    · exact .inl (by rw [htext, encode_digits h.lt_ten])
    · exact .inr (by rw [htext, List.flatMap_cons, encode_plus, encode_digits h.lt_ten]; rfl)
  · rintro ⟨⟨bytes, rfl, digits, h, hbytes⟩, hlt⟩
    rcases hbytes with rfl | rfl
    · refine ⟨String.ofList (digits.map Nat.digitChar), ?_, ⟨digits, h, ?_⟩, hlt⟩
      · rw [String.toList_ofList, encode_digits h.lt_ten]
      · exact .inl (String.toList_ofList ..)
    · refine ⟨String.ofList ('+' :: digits.map Nat.digitChar), ?_, ⟨digits, h, ?_⟩, hlt⟩
      · rw [String.toList_ofList, List.flatMap_cons, encode_plus, encode_digits h.lt_ten]
        rfl
      · exact .inr (String.toList_ofList ..)

/-! ### The settings of an environment -/

theorem stackSizeOf_decode (value : Option (List UInt8)) :
    (stackSizeOf (decode value)).1 =
      if 0 < (numberOf value).getD 0 then max ((numberOf value).getD 0) minStackSize
      else defaultStackSize := by
  unfold stackSizeOf numberOf
  cases decode value with
  | none => rfl
  | some text =>
    simp only [Option.bind_some]
    split
    · rename_i hnone
      simp [hnone]
    · rename_i hzero
      simp [hzero]
    · rename_i n hne hn
      have hpos : 0 < n := Nat.pos_of_ne_zero hne
      simp only [hn, Option.getD_some, if_pos hpos]
      split <;> omega

theorem poolCapacityOf_decode (value : Option (List UInt8)) :
    (poolCapacityOf (decode value)).1 = (numberOf value).getD defaultPoolCapacity := by
  unfold poolCapacityOf numberOf
  cases decode value with
  | none => rfl
  | some text =>
    simp only [Option.bind_some]
    split
    · rename_i hnone
      simp [hnone]
    · rename_i n hn
      simp [hn]

theorem minStackSize_le_stackSizeOf (value : Option String) :
    minStackSize ≤ (stackSizeOf value).1 := by
  unfold stackSizeOf
  have hstandard : minStackSize ≤ defaultStackSize := by decide
  repeat' split
  all_goals first | exact hstandard | simp only; omega

/-- What it means that these are exactly the settings that an environment asks for. -/
structure ReadsExactly (env : Environment) (settings : Settings) : Prop where
  /-- A number is the stack size, unless it is 0 or too large. One below the minimum is raised. -/
  stackSize : ∀ {bytes n}, env.stackSize = some bytes → Writes bytes n → 0 < n → n < Word.count →
    settings.stackSize = max n minStackSize
  /-- In all other cases the stack size is the standard one. -/
  otherStackSize : (∀ bytes n, env.stackSize = some bytes → Writes bytes n →
    n = 0 ∨ Word.count ≤ n) → settings.stackSize = defaultStackSize
  /-- A number is the pool capacity, unless it is too large. -/
  poolCapacity : ∀ {bytes n}, env.poolCapacity = some bytes → Writes bytes n → n < Word.count →
    settings.poolCapacity = n
  /-- In all other cases the pool capacity is the standard one. -/
  otherPoolCapacity : (∀ bytes n, env.poolCapacity = some bytes → Writes bytes n →
    Word.count ≤ n) → settings.poolCapacity = defaultPoolCapacity
  minimum : minStackSize ≤ settings.stackSize

/-- The decimal text of a number writes it. -/
theorem exists_decimal (n : Nat) :
    ∃ digits, Decimal digits n ∧ Nat.toDigits 10 n = digits.map Nat.digitChar := by
  induction n using Nat.strongRecOn with
  | ind n ih =>
    by_cases hn : n < 10
    · exact ⟨[n], ⟨by simp, by simpa using hn, by simp⟩, by simp [Nat.toDigits_of_lt_base hn]⟩
    · have hle : 10 ≤ n := Nat.le_of_not_lt hn
      obtain ⟨digits, h, htext⟩ := ih (n / 10) (by omega)
      refine ⟨digits ++ [n % 10], ⟨by simp, fun d hd => ?_, ?_⟩, ?_⟩
      · rcases List.mem_append.mp hd with hd | hd
        · exact h.lt_ten d hd
        · obtain rfl := List.mem_singleton.mp hd
          exact Nat.mod_lt _ (by decide)
      · rw [List.reverse_append, List.reverse_singleton, List.singleton_append, Nat.ofDigits_cons,
          h.value]
        exact Nat.mod_add_div n 10
      · rw [Nat.toDigits_of_base_le (by decide) hle, htext]
        simp

/-- The decimal text of a number is read as that number. -/
theorem numberOf_toString (h : n < Word.count) :
    numberOf (some (toString n).toUTF8.data.toList) = some n := by
  obtain ⟨digits, hdecimal, htext⟩ := exists_decimal n
  rw [numberOf, decode_eq_some_iff.mpr rfl]
  exact parseWord?_eq_some_iff.mpr ⟨⟨digits, hdecimal, .inl (Nat.toList_repr.trans htext)⟩, h⟩

/-- **Values of the environment are read exactly**, whatever bytes the two variables hold, and the
decimal text of every number in range gives back that number. -/
theorem environment_read_exactly (env : Environment) :
    ReadsExactly env (ofEnvironment env).1 ∧
      ∀ n < Word.count,
        (ofEnvironment { env with
          poolCapacity := some (toString n).toUTF8.data.toList }).1.poolCapacity = n ∧
        (minStackSize ≤ n → (ofEnvironment { env with
          stackSize := some (toString n).toUTF8.data.toList }).1.stackSize = n) := by
  refine ⟨?_, fun n hn => ⟨?_, fun hmin => ?_⟩⟩
  · refine
      { stackSize := fun {bytes n} hbytes hwrites hpos hlt => ?_
        otherStackSize := fun h => ?_
        poolCapacity := fun {bytes n} hbytes hwrites hlt => ?_
        otherPoolCapacity := fun h => ?_
        minimum := minStackSize_le_stackSizeOf _ }
    · have hn := numberOf_eq_some_iff.mpr ⟨⟨bytes, hbytes, hwrites⟩, hlt⟩
      rw [ofEnvironment, stackSizeOf_decode, hn]
      exact if_pos hpos
    · rw [ofEnvironment, stackSizeOf_decode]
      cases hnumber : numberOf env.stackSize with
      | none => rfl
      | some n =>
        obtain ⟨⟨bytes, hbytes, hwrites⟩, hlt⟩ := numberOf_eq_some_iff.mp hnumber
        obtain rfl := (h bytes n hbytes hwrites).resolve_right (Nat.not_le.mpr hlt)
        rfl
    · have hn := numberOf_eq_some_iff.mpr ⟨⟨bytes, hbytes, hwrites⟩, hlt⟩
      rw [ofEnvironment, poolCapacityOf_decode, hn]
      rfl
    · rw [ofEnvironment, poolCapacityOf_decode]
      cases hnumber : numberOf env.poolCapacity with
      | none => rfl
      | some n =>
        obtain ⟨⟨bytes, hbytes, hwrites⟩, hlt⟩ := numberOf_eq_some_iff.mp hnumber
        exact absurd hlt (Nat.not_lt.mpr (h bytes n hbytes hwrites))
  · rw [ofEnvironment, poolCapacityOf_decode, numberOf_toString hn]
    rfl
  · rw [ofEnvironment, stackSizeOf_decode, numberOf_toString hn]
    have hpos : 0 < n := Nat.lt_of_lt_of_le (by decide) hmin
    rw [Option.getD_some, if_pos hpos, max_eq_left hmin]

end EffectHandlers.Settings
