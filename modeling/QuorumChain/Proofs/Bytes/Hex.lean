import Mathlib.Data.List.Basic
import QuorumChain.Bytes.Hex
import QuorumChain.Proofs.Change

/-! Hexadecimal text. A text is read if it has two digits for each byte, in either case, and what is read
is written as the same text in lower case; of any other text the first thing that is wrong is told. -/

namespace QuorumChain

namespace Hex

/-- A byte of text that is a digit in either case. -/
def isDigit (b : UInt8) : Bool := (Char.ofNat b.toNat).isHexDigit

/-- A byte of text as a digit in lower case. -/
def lowerCase (b : UInt8) : Char := (Char.ofNat b.toNat).toLower

/-- Where the first byte stands that is no digit. -/
def firstOther? (text : List UInt8) : Option Nat := text.findIdx? fun b => !isDigit b

section Digits

variable {b : UInt8} {v w : Nat}

/-- What is to be shown of a byte can be checked for each of them. -/
theorem forall_byte {P : UInt8 → Prop} (h : ∀ a : Fin 256, P (UInt8.ofNat a)) (b : UInt8) : P b := by
  have hb := h ⟨b.toNat, b.toNat_lt⟩
  rwa [UInt8.ofNat_toNat] at hb

theorem isSome_value? (b : UInt8) : (value? b).isSome = isDigit b :=
  forall_byte (P := fun b => (value? b).isSome = isDigit b) (by decide +kernel) b

theorem digit_of_value? (h : value? b = some v) : v < 16 ∧ digit v = lowerCase b := by
  have hb := forall_byte (P := fun b => (value? b).all (fun v => decide (v < 16 ∧ digit v = lowerCase b)) = true)
    (by decide +kernel) b
  rw [h] at hb
  exact of_decide_eq_true hb

theorem toNat_lt_of_isDigit (h : isDigit b = true) : b.toNat < 128 :=
  forall_byte (P := fun b => isDigit b = true → b.toNat < 128) (by decide +kernel) b h

theorem digit_inj (hv : v < 16) (hw : w < 16) (h : digit v = digit w) : v = w := by
  have hall : ∀ v w : Fin 16, digit v = digit w → v.val = w.val := by decide
  exact hall ⟨v, hv⟩ ⟨w, hw⟩ h

end Digits

section Pairs

variable {text bs cs : List UInt8}

theorem encodeChars_cons (b : UInt8) (bs : List UInt8) :
    encodeChars (b :: bs) = digit (b.toNat / 16) :: digit (b.toNat % 16) :: encodeChars bs := rfl

@[simp] theorem length_encodeChars (bs : List UInt8) : (encodeChars bs).length = 2 * bs.length := by
  induction bs with
  | nil => rfl
  | cons b bs ih => rw [encodeChars_cons, List.length_cons, List.length_cons, ih, List.length_cons]; omega

theorem encodeChars_take (bs : List UInt8) (k : Nat) : encodeChars (bs.take k) = (encodeChars bs).take (2 * k) := by
  induction k generalizing bs with
  | zero => rfl
  | succ k ih =>
      cases bs with
      | nil => rfl
      | cons b bs =>
          rw [List.take_succ_cons, encodeChars_cons, encodeChars_cons, ih]
          rfl

/-- What is to be shown of the characters of a text can be checked for each digit. -/
theorem forall_mem_encodeChars {P : Char → Prop} (h : ∀ v : Fin 16, P (digit v)) : ∀ c ∈ encodeChars bs, P c := by
  intro c hc
  obtain ⟨b, _, hc⟩ := List.mem_flatMap.mp hc
  have hb := b.toNat_lt
  rcases List.mem_pair.mp hc with rfl | rfl
  · exact h ⟨b.toNat / 16, by omega⟩
  · exact h ⟨b.toNat % 16, by omega⟩

theorem encodeChars_inj (h : encodeChars bs = encodeChars cs) : bs = cs := by
  induction bs generalizing cs with
  | nil =>
      cases cs with
      | nil => rfl
      | cons c cs => cases h
  | cons b bs ih =>
      cases cs with
      | nil => cases h
      | cons c cs =>
          rw [encodeChars_cons, encodeChars_cons, List.cons.injEq, List.cons.injEq] at h
          obtain ⟨hhigh, hlow, hrest⟩ := h
          have hb := b.toNat_lt
          have hc := c.toNat_lt
          have hdiv := digit_inj (by omega) (by omega) hhigh
          have hmod := digit_inj (by omega) (by omega) hlow
          rw [UInt8.toNat_inj.mp (show b.toNat = c.toNat by omega), ih hrest]

theorem firstOther?_cons (b : UInt8) (text : List UInt8) :
    firstOther? (b :: text) = if isDigit b then (firstOther? text).map (· + 1) else some 0 := by
  rw [firstOther?, List.findIdx?_cons]
  cases isDigit b <;> rfl

/-- Pairs of digits are read as bytes, and the first byte of text that is no digit stops the reading. -/
theorem decodePairs_answers (position : Nat) (heven : text.length % 2 = 0) :
    (∃ p, firstOther? text = some p ∧ decodePairs position text = .error (.symbol (position + p))) ∨
    firstOther? text = none ∧
      ∃ bs, decodePairs position text = .ok bs ∧ encodeChars bs = text.map lowerCase := by
  fun_induction decodePairs position text with
  | case1 position hi lo rest h l hl hh ih =>
      have hhi : isDigit hi = true := by rw [← isSome_value?, hh]; rfl
      have hlo : isDigit lo = true := by rw [← isSome_value?, hl]; rfl
      rw [firstOther?_cons, firstOther?_cons, if_pos hhi, if_pos hlo]
      rw [List.length_cons, List.length_cons] at heven
      rcases ih (by omega) with ⟨p, hp, hread⟩ | ⟨hnone, bs, hread, hbs⟩
      · rw [hp, hread, Nat.add_assoc, Nat.add_comm 2 p]
        exact .inl ⟨p + 2, rfl, rfl⟩
      · obtain ⟨hhigh, hhighDigit⟩ := digit_of_value? hh
        obtain ⟨hlow, hlowDigit⟩ := digit_of_value? hl
        have hbyte : (UInt8.ofNat (16 * h + l)).toNat = 16 * h + l := by
          rw [UInt8.toNat_ofNat']
          omega
        rw [hnone, hread]
        refine .inr ⟨rfl, UInt8.ofNat (16 * h + l) :: bs, rfl, ?_⟩
        rw [encodeChars_cons, hbyte, hbs, List.map_cons, List.map_cons, ← hhighDigit, ← hlowDigit,
          show (16 * h + l) / 16 = h by omega, show (16 * h + l) % 16 = l by omega]
  | case2 position hi lo rest hh =>
      have hhi : ¬isDigit hi = true := by rw [← isSome_value?, hh]; exact nofun
      rw [firstOther?_cons, if_neg hhi]
      exact .inl ⟨0, rfl, rfl⟩
  | case3 position hi lo rest h hl hh =>
      have hhi : isDigit hi = true := by rw [← isSome_value?, hh]; rfl
      have hlo : ¬isDigit lo = true := by rw [← isSome_value?, hl]; exact nofun
      rw [firstOther?_cons, firstOther?_cons, if_pos hhi, if_neg hlo]
      exact .inl ⟨1, rfl, rfl⟩
  | case4 text position hshort =>
      cases text with
      | nil => exact .inr ⟨rfl, [], rfl, rfl⟩
      | cons b text =>
          cases text with
          | nil => cases heven
          | cons c text => exact absurd rfl (hshort b c text)

end Pairs

section Utf8

variable {c : Char} {text : String}

theorem toList_loop (data : Array UInt8) (i : Nat) (taken : List UInt8) :
    ByteArray.toList.loop ⟨data⟩ i taken = taken.reverse ++ data.toList.drop i := by
  rw [ByteArray.toList.loop]
  split
  next h =>
    have hi : i < data.size := h
    have hget : (ByteArray.mk data).get! i = data.toList[i] := getElem!_pos data i hi
    rw [toList_loop data (i + 1), hget, List.reverse_cons, List.append_assoc, List.singleton_append,
      List.getElem_cons_drop]
  next h =>
    have hi : data.toList.length ≤ i := Nat.le_of_not_lt h
    rw [List.drop_eq_nil_of_le hi, List.append_nil]
termination_by data.size - i

/-- The bytes of a text are those of its characters. -/
theorem toList_toUTF8 (text : String) : text.toUTF8.toList = text.toList.flatMap String.utf8EncodeChar := by
  have hbytes : text.toUTF8 = text.toList.utf8Encode := String.utf8Encode_toList.symm
  rw [hbytes, ByteArray.toList, toList_loop]
  exact List.toList_data_toByteArray

theorem toNat_lt_of_isHexDigit (h : c.isHexDigit = true) : c.toNat < 128 := by
  simp only [Char.isHexDigit, Char.isDigit, Bool.or_eq_true, Bool.and_eq_true, decide_eq_true_eq, ge_iff_le,
    UInt32.le_iff_toNat_le] at h
  show c.val.toNat < 128
  change ((48 ≤ c.val.toNat ∧ c.val.toNat ≤ 57) ∨ 97 ≤ c.val.toNat ∧ c.val.toNat ≤ 102) ∨
    65 ≤ c.val.toNat ∧ c.val.toNat ≤ 70 at h
  omega

/-- No other characters become digits in lower case. -/
theorem isHexDigit_of_toLower (h : c.toLower.isHexDigit = true) : c.isHexDigit = true := by
  by_cases hascii : c.toNat < 128
  · have hall : ∀ a : Fin 128, (Char.ofNat a).toLower.isHexDigit = true → (Char.ofNat a).isHexDigit = true := by
      decide +kernel
    have hc := hall ⟨c.toNat, hascii⟩
    rw [Char.ofNat_toNat] at hc
    exact hc h
  · have hlower : c.toLower = c := by
      refine dif_neg fun hrange => ?_
      have hle : c.toNat ≤ 90 := UInt32.le_iff_toNat_le.mp hrange.2
      omega
    rwa [hlower] at h

theorem ofNat_toUInt8 (h : c.toNat < 128) : Char.ofNat c.toUInt8.toNat = c := by
  have hbyte : c.toUInt8.toNat = c.toNat := by
    show c.toNat % 256 = c.toNat
    omega
  rw [hbyte, Char.ofNat_toNat]

theorem utf8_ascii (h : c.toNat < 128) : String.utf8EncodeChar c = [c.toUInt8] := by
  have hsize : c.val.toNat ≤ 127 := Nat.le_of_lt_succ h
  rw [String.utf8EncodeChar, if_pos hsize]
  rfl

/-- Characters of more than one byte start with a byte that is no digit. -/
theorem exists_utf8_eq_cons (h : 128 ≤ c.toNat) :
    ∃ b bs, String.utf8EncodeChar c = b :: bs ∧ 128 ≤ b.toNat := by
  have hsize : ¬c.val.toNat ≤ 127 := Nat.not_le_of_lt h
  rw [String.utf8EncodeChar, if_neg hsize]
  split
  · exact ⟨_, _, rfl, by rw [UInt8.toNat_ofNat']; omega⟩
  · split
    · exact ⟨_, _, rfl, by rw [UInt8.toNat_ofNat']; omega⟩
    · exact ⟨_, _, rfl, by rw [UInt8.toNat_ofNat']; omega⟩

theorem isHexDigit_of_utf8 (h : ∀ b ∈ String.utf8EncodeChar c, isDigit b = true) : c.isHexDigit = true := by
  by_cases hascii : c.toNat < 128
  · rw [utf8_ascii hascii] at h
    have hc := h _ (List.mem_singleton_self _)
    rwa [isDigit, ofNat_toUInt8 hascii] at hc
  · obtain ⟨b, bs, hbytes, hb⟩ := exists_utf8_eq_cons (Nat.le_of_not_lt hascii)
    rw [hbytes] at h
    exact absurd (toNat_lt_of_isDigit (h b List.mem_cons_self)) (Nat.not_lt_of_le hb)

theorem firstOther?_eq_none {bytes : List UInt8} : firstOther? bytes = none ↔ ∀ b ∈ bytes, isDigit b = true := by
  simp only [firstOther?, List.findIdx?_eq_none_iff, Bool.not_eq_false']

theorem utf8_of_digits (h : ∀ c ∈ text.toList, c.isHexDigit = true) :
    text.toUTF8.toList = text.toList.map Char.toUInt8 := by
  rw [toList_toUTF8, List.map_eq_flatMap]
  exact List.flatMap_congr fun c hc => utf8_ascii (toNat_lt_of_isHexDigit (h c hc))

/-- The bytes of a text are digits if its characters are. -/
theorem firstOther?_utf8 : firstOther? text.toUTF8.toList = none ↔ ∀ c ∈ text.toList, c.isHexDigit = true := by
  rw [firstOther?_eq_none]
  constructor
  · intro h c hc
    refine isHexDigit_of_utf8 fun b hb => h b ?_
    rw [toList_toUTF8]
    exact List.mem_flatMap.mpr ⟨c, hc, hb⟩
  · intro h b hb
    rw [utf8_of_digits h] at hb
    obtain ⟨c, hc, rfl⟩ := List.mem_map.mp hb
    rw [isDigit, ofNat_toUInt8 (toNat_lt_of_isHexDigit (h c hc))]
    exact h c hc

theorem toList_toLower (text : String) : text.toLower.toList = text.toList.map Char.toLower := String.toList_map

theorem lowerCase_utf8 (h : ∀ c ∈ text.toList, c.isHexDigit = true) :
    text.toUTF8.toList.map lowerCase = text.toLower.toList := by
  rw [utf8_of_digits h, List.map_map, toList_toLower]
  refine List.map_congr_left fun c hc => ?_
  show (Char.ofNat c.toUInt8.toNat).toLower = c.toLower
  rw [ofNat_toUInt8 (toNat_lt_of_isHexDigit (h c hc))]

end Utf8

end Hex

namespace FixedBytes

open Hex

variable {n : Nat}

theorem toHex_inj {x y : FixedBytes n} : x.toHex = y.toHex ↔ x = y := by
  refine ⟨fun h => FixedBytes.ext (encodeChars_inj ?_), congrArg toHex⟩
  exact String.ofList_injective h

/-- What a text of these UTF-8 bytes is read as. -/
inductive Reads (n : Nat) (text : List UInt8) : Except HexError (FixedBytes n) → Prop where
  | odd (hodd : text.length % 2 = 1) : Reads n text (.error (.length (text.length - 1)))
  | other (heven : text.length % 2 = 0) {p : Nat} (hp : firstOther? text = some p) :
      Reads n text (.error (.symbol p))
  | size (heven : text.length % 2 = 0) (hdigits : firstOther? text = none) (hsize : text.length ≠ 2 * n) :
      Reads n text (.error (.length 0))
  | value (hdigits : firstOther? text = none) {x : FixedBytes n} (hx : encodeChars x.bytes = text.map lowerCase) :
      Reads n text (.ok x)

theorem Reads.length_eq {text : List UInt8} {x : FixedBytes n} (hx : encodeChars x.bytes = text.map lowerCase) :
    text.length = 2 * n := by
  have hlength := congrArg List.length hx
  rw [length_encodeChars, List.length_map, x.length_eq] at hlength
  exact hlength.symm

section Decoded

variable {text : String} {bs : List UInt8}

theorem ofHex_of_error {e : HexError} (h : Hex.decode text = .error e) : ofHex n text = .error e :=
  bind_eq_error.mpr (.inl h)

theorem ofHex_of_length_eq (h : Hex.decode text = .ok bs) (hbs : bs.length = n) : ofHex n text = .ok ⟨bs, hbs⟩ := by
  have hlist : ofList? n bs = some ⟨bs, hbs⟩ := dif_pos hbs
  refine bind_eq_ok.mpr ⟨bs, h, ?_⟩
  rw [hlist]

theorem ofHex_of_length_ne (h : Hex.decode text = .ok bs) (hbs : bs.length ≠ n) :
    ofHex n text = .error (.length 0) := by
  have hlist : ofList? n bs = none := dif_neg hbs
  refine bind_eq_error.mpr (.inr ⟨bs, h, ?_⟩)
  rw [hlist]

end Decoded

theorem ofHex_reads (n : Nat) (text : String) : Reads n text.toUTF8.toList (ofHex n text) := by
  by_cases hodd : text.toUTF8.toList.length % 2 = 1
  · rw [ofHex_of_error (if_pos hodd)]
    exact .odd hodd
  · have heven : text.toUTF8.toList.length % 2 = 0 := by omega
    have hdecode : Hex.decode text = decodePairs 0 text.toUTF8.toList := if_neg hodd
    rcases decodePairs_answers 0 heven with ⟨p, hp, hread⟩ | ⟨hdigits, bs, hread, hbs⟩
    · rw [ofHex_of_error (hdecode.trans hread), Nat.zero_add]
      exact .other heven hp
    · by_cases hsize : bs.length = n
      · rw [ofHex_of_length_eq (hdecode.trans hread) hsize]
        exact .value hdigits hbs
      · have hlength := congrArg List.length hbs
        rw [length_encodeChars, List.length_map] at hlength
        rw [ofHex_of_length_ne (hdecode.trans hread) hsize]
        exact .size heven hdigits (by omega)

theorem exists_ofHex {text : String} :
    (∃ x, ofHex n text = .ok x) ↔ text.length = 2 * n ∧ ∀ c ∈ text.toList, c.isHexDigit = true := by
  have hreads := ofHex_reads n text
  constructor
  · rintro ⟨x, h⟩
    rw [h] at hreads
    cases hreads with
    | value hdigits hx =>
        have hchars := firstOther?_utf8.mp hdigits
        have hlength := Reads.length_eq hx
        rw [utf8_of_digits hchars, List.length_map, String.length_toList] at hlength
        exact ⟨hlength, hchars⟩
  · rintro ⟨hlength, hchars⟩
    have hdigits := firstOther?_utf8.mpr hchars
    have hbytes : text.toUTF8.toList.length = 2 * n := by
      rw [utf8_of_digits hchars, List.length_map, String.length_toList, hlength]
    cases h : ofHex n text with
    | ok x => exact ⟨x, rfl⟩
    | error e =>
        rw [h] at hreads
        cases hreads with
        | odd hodd => omega
        | other heven hp => cases hdigits.symm.trans hp
        | size heven hnone hsize => exact absurd hbytes hsize

theorem toHex_of_ofHex {text : String} {x : FixedBytes n} (h : ofHex n text = .ok x) :
    x.toHex = text.toLower := by
  have hreads := ofHex_reads n text
  rw [h] at hreads
  cases hreads with
  | value hdigits hx =>
      rw [lowerCase_utf8 (firstOther?_utf8.mp hdigits)] at hx
      rw [toHex, encode, hx, String.ofList_toList]

/-- A text is read as the value that is written as the text in lower case. -/
theorem ofHex_eq_ok {text : String} {x : FixedBytes n} : ofHex n text = .ok x ↔ x.toHex = text.toLower := by
  refine ⟨toHex_of_ofHex, fun h => ?_⟩
  have hlower : encodeChars x.bytes = text.toList.map Char.toLower := by
    rw [← toList_toLower, ← h, toHex, encode, String.toList_ofList]
  have hlength := congrArg List.length hlower
  rw [length_encodeChars, x.length_eq, List.length_map, String.length_toList] at hlength
  have hchars : ∀ c ∈ text.toList, c.isHexDigit = true := by
    intro c hc
    have hmem : c.toLower ∈ encodeChars x.bytes := hlower ▸ List.mem_map_of_mem hc
    exact isHexDigit_of_toLower (forall_mem_encodeChars (P := fun c => c.isHexDigit = true) (by decide) _ hmem)
  obtain ⟨z, hz⟩ := exists_ofHex.mpr ⟨hlength.symm, hchars⟩
  rw [hz, toHex_inj.mp ((toHex_of_ofHex hz).trans h.symm)]

theorem ofHex_toHex (x : FixedBytes n) : ofHex n x.toHex = .ok x := by
  have hlower : (encodeChars x.bytes).map Char.toLower = encodeChars x.bytes := by
    refine (List.map_congr_left fun c hc => ?_).trans (List.map_id _)
    exact forall_mem_encodeChars (P := fun c => c.toLower = c) (by decide) c hc
  refine ofHex_eq_ok.mpr (String.toList_inj.mp ?_)
  rw [toList_toLower, toHex, encode, String.toList_ofList, hlower]

theorem toShortHex_eq (x : FixedBytes n) : x.toShortHex.toList = x.toHex.toList.take 8 := by
  rw [toShortHex, toHex, encode, encode, String.toList_ofList, String.toList_ofList, encodeChars_take]

/-- What is wrong with a text, in the order in which it is looked for. -/
theorem ofHex_eq_error {text : String} {e : HexError} : ofHex n text = .error e ↔
    text.toUTF8.toList.length % 2 = 1 ∧ e = .length (text.toUTF8.toList.length - 1) ∨
    text.toUTF8.toList.length % 2 = 0 ∧ (∃ p, firstOther? text.toUTF8.toList = some p ∧ e = .symbol p) ∨
    text.toUTF8.toList.length % 2 = 0 ∧ firstOther? text.toUTF8.toList = none ∧
      text.toUTF8.toList.length ≠ 2 * n ∧ e = .length 0 := by
  have hreads := ofHex_reads n text
  generalize text.toUTF8.toList = bytes at hreads
  constructor
  · intro h
    rw [h] at hreads
    cases hreads with
    | odd hodd => exact .inl ⟨hodd, rfl⟩
    | other heven hp => exact .inr (.inl ⟨heven, _, hp, rfl⟩)
    | size heven hdigits hsize => exact .inr (.inr ⟨heven, hdigits, hsize, rfl⟩)
  · intro h
    generalize ofHex n text = answer at hreads
    cases hreads with
    | odd hodd =>
        rcases h with ⟨_, rfl⟩ | ⟨heven, _⟩ | ⟨heven, _⟩
        · rfl
        · omega
        · omega
    | other heven hp =>
        rcases h with ⟨hodd, _⟩ | ⟨_, q, hq, rfl⟩ | ⟨_, hnone, _⟩
        · omega
        · rw [Option.some.inj (hp.symm.trans hq)]
        · cases hnone.symm.trans hp
    | size heven hdigits hsize =>
        rcases h with ⟨hodd, _⟩ | ⟨_, q, hq, _⟩ | ⟨_, _, _, rfl⟩
        · omega
        · cases hdigits.symm.trans hq
        · rfl
    | value hdigits hx =>
        have hlength := Reads.length_eq hx
        rcases h with ⟨hodd, _⟩ | ⟨_, q, hq, _⟩ | ⟨_, _, hsize, _⟩
        · omega
        · cases hdigits.symm.trans hq
        · exact absurd hlength hsize

/-- **Hexadecimal text stands for bytes**, the 32 of an identifier, a payload hash or a key and the 64 of a
signature. A text is read if it has two digits in either case for each byte, as the value whose text it is in
lower case; each value has one text, and eight digits in short. Of a text that is not read, an odd number of
UTF-8 bytes is found first, then the first byte that is no digit, then a wrong number of bytes. -/
theorem hex_stands_for_bytes (text : String) (x y : FixedBytes n) (e : HexError) :
    ((∃ z, ofHex n text = .ok z) ↔ text.length = 2 * n ∧ ∀ c ∈ text.toList, c.isHexDigit = true) ∧
    (ofHex n text = .ok x ↔ x.toHex = text.toLower) ∧
    ofHex n x.toHex = .ok x ∧
    (x.toHex = y.toHex ↔ x = y) ∧
    x.toShortHex.toList = x.toHex.toList.take 8 ∧
    (ofHex n text = .error e ↔
      text.toUTF8.toList.length % 2 = 1 ∧ e = .length (text.toUTF8.toList.length - 1) ∨
      text.toUTF8.toList.length % 2 = 0 ∧ (∃ p, firstOther? text.toUTF8.toList = some p ∧ e = .symbol p) ∨
      text.toUTF8.toList.length % 2 = 0 ∧ firstOther? text.toUTF8.toList = none ∧
        text.toUTF8.toList.length ≠ 2 * n ∧ e = .length 0) :=
  ⟨exists_ofHex, ofHex_eq_ok, ofHex_toHex x, toHex_inj, toShortHex_eq x, ofHex_eq_error⟩

end FixedBytes

end QuorumChain
