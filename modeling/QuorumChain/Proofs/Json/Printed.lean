import Mathlib.Data.List.Basic
import QuorumChain.Json.Printer
import QuorumChain.Json.Reader

/-! A JSON value is read back from its text. What follows the text must not go on with a number, and every
reading takes a character at least, so the length of the text is fuel enough. -/

namespace QuorumChain.Json

section Numbers

variable {v : Nat} {rest : List Char}

theorem decimal_of_lt (h : v < 10) : decimal v = [Char.ofNat (48 + v)] := by
  rw [decimal, dif_pos h]

theorem decimal_of_le (h : 10 ≤ v) : decimal v = decimal (v / 10) ++ [Char.ofNat (48 + v % 10)] := by
  rw [decimal, dif_neg (Nat.not_lt_of_le h)]

theorem isDigit_ofNat (h : v < 10) : (Char.ofNat (48 + v)).isDigit = true := by
  have hall : ∀ v : Fin 10, (Char.ofNat (48 + v)).isDigit = true := by decide
  exact hall ⟨v, h⟩

theorem digitValue_ofNat (h : v < 10) : digitValue (Char.ofNat (48 + v)) = v := by
  have hall : ∀ v : Fin 10, digitValue (Char.ofNat (48 + v)) = v := by decide
  exact hall ⟨v, h⟩

theorem isDigit_of_mem_decimal (v : Nat) : ∀ c ∈ decimal v, c.isDigit = true := by
  induction v using decimal.induct with
  | case1 v h =>
      rw [decimal_of_lt h]
      exact List.forall_mem_singleton.mpr (isDigit_ofNat h)
  | case2 v h ih =>
      rw [decimal_of_le (Nat.le_of_not_lt h)]
      exact List.forall_mem_append.mpr ⟨ih, List.forall_mem_singleton.mpr (isDigit_ofNat (by omega))⟩

theorem ofDecimal_append (digits : List Char) (c : Char) :
    ofDecimal (digits ++ [c]) = ofDecimal digits * 10 + digitValue c := by
  rw [ofDecimal, List.foldl_append]
  rfl

theorem ofDecimal_decimal (v : Nat) : ofDecimal (decimal v) = v := by
  induction v using decimal.induct with
  | case1 v h =>
      rw [decimal_of_lt h]
      show 0 * 10 + digitValue (Char.ofNat (48 + v)) = v
      rw [digitValue_ofNat h]
      omega
  | case2 v h ih =>
      rw [decimal_of_le (Nat.le_of_not_lt h), ofDecimal_append, ih, digitValue_ofNat (by omega)]
      omega

/-- A number does not start with a zero unless it is zero. -/
theorem decimal_eq_cons (v : Nat) :
    ∃ d < 10, ∃ digits, decimal v = Char.ofNat (48 + d) :: digits ∧ (d = 0 → digits = []) := by
  induction v using decimal.induct with
  | case1 v h => exact ⟨v, h, [], decimal_of_lt h, fun _ => rfl⟩
  | case2 v h ih =>
      obtain ⟨d, hd, digits, hdecimal, hzero⟩ := ih
      rw [decimal_of_le (Nat.le_of_not_lt h), hdecimal]
      refine ⟨d, hd, digits ++ [Char.ofNat (48 + v % 10)], rfl, fun h0 => ?_⟩
      -- a zero alone would be less than one
      have hvalue := ofDecimal_decimal (v / 10)
      rw [hdecimal, hzero h0, h0] at hvalue
      change 0 = v / 10 at hvalue
      omega

/-- What may stand after a number. -/
def Ends (rest : List Char) : Prop :=
  ∀ c ∈ rest.head?, c.isDigit = false ∧ c ≠ '.' ∧ c ≠ 'e' ∧ c ≠ 'E'

theorem Ends.nil : Ends [] := nofun

theorem ends_of_mem {c : Char} (h : c ∈ [',', ']', '\x7d']) : Ends (c :: rest) := by
  intro d hd
  cases hd
  simp only [List.mem_cons, List.not_mem_nil, or_false] at h
  rcases h with rfl | rfl | rfl <;> decide

theorem takeWhile_decimal (h : Ends rest) : (decimal v ++ rest).takeWhile Char.isDigit = decimal v := by
  rw [List.takeWhile_append_of_pos (isDigit_of_mem_decimal v)]
  cases rest with
  | nil => exact List.append_nil _
  | cons c rest => rw [List.takeWhile_cons_of_neg (by rw [(h c rfl).1]; exact nofun), List.append_nil]

theorem dropWhile_decimal (h : Ends rest) : (decimal v ++ rest).dropWhile Char.isDigit = rest := by
  rw [List.dropWhile_append_of_pos (isDigit_of_mem_decimal v)]
  cases rest with
  | nil => rfl
  | cons c rest => exact List.dropWhile_cons_of_neg (by rw [(h c rfl).1]; exact nofun)

theorem afterFraction?_ends (h : Ends rest) : afterFraction? rest = some rest := by
  unfold afterFraction?
  split
  next cs => exact absurd rfl (h '.' rfl).2.1
  next cs _ => rfl

theorem afterExponent?_ends (h : Ends rest) : afterExponent? rest = some rest := by
  cases rest with
  | nil => rfl
  | cons c rest =>
      obtain ⟨-, -, hlower, hupper⟩ := h c rfl
      exact if_neg (not_or.mpr ⟨hlower, hupper⟩)

theorem readUnsigned_decimal (v : Nat) (h : Ends rest) :
    readUnsigned (decimal v ++ rest) = some (natural v, rest) := by
  obtain ⟨d, hd, digits, hdecimal, hzero⟩ := decimal_eq_cons v
  have hvalue := ofDecimal_decimal v
  rw [readUnsigned, takeWhile_decimal h, dropWhile_decimal h, hdecimal]
  rw [hdecimal] at hvalue
  split
  next heq => cases heq
  next c cs heq =>
    obtain ⟨hhead, rfl⟩ := List.cons.inj heq
    have h0 : d = 0 := (digitValue_ofNat hd).symm.trans (congrArg digitValue hhead)
    cases hzero h0
  next =>
    rw [afterFraction?_ends h]
    show (afterExponent? rest).bind _ = _
    rw [afterExponent?_ends h]
    show some (if rest.length = rest.length then natural (ofDecimal (Char.ofNat (48 + d) :: digits)) else otherNumber,
      rest) = _
    rw [if_pos rfl, hvalue]

end Numbers

section Texts

variable {pieces : List Piece} {rest : List Char} {fuel u : Nat}

/-- A part of a text that can be told from the end of the text and from an escape. -/
def Piece.Legible : Piece → Prop
  | .plain c => c ≠ '"' ∧ c ≠ '\\'
  | .escaped unit => unit < 65536

theorem hexValue?_hexDigit (h : u < 16) : hexValue? (hexDigit u) = some u := by
  have hall : ∀ u : Fin 16, hexValue? (hexDigit u) = some u.val := by decide
  exact hall ⟨u, h⟩

theorem readEscape_unit (h : u < 65536) :
    readEscape ('u' :: hexDigit (u / 4096) :: hexDigit (u / 256 % 16) :: hexDigit (u / 16 % 16) ::
      hexDigit (u % 16) :: rest) = some (.escaped u, rest) := by
  rw [readEscape, hexValue?_hexDigit (by omega), hexValue?_hexDigit (by omega), hexValue?_hexDigit (by omega),
    hexValue?_hexDigit (by omega)]
  show some (Piece.escaped (((u / 4096 * 16 + u / 256 % 16) * 16 + u / 16 % 16) * 16 + u % 16), rest) = _
  rw [show ((u / 4096 * 16 + u / 256 % 16) * 16 + u / 16 % 16) * 16 + u % 16 = u by omega]

theorem readPieces_of_plain {c : Char} {cs : List Char} (hc : (Piece.plain c).Legible)
    (h : readPieces fuel cs = some (pieces, rest)) :
    readPieces (fuel + 1) (c :: cs) = some (.plain c :: pieces, rest) := by
  rw [readPieces, h]
  · rfl
  · exact hc.1
  · exact hc.2

theorem readPieces_of_escape {p : Piece} {cs after : List Char} (hp : readEscape cs = some (p, after))
    (h : readPieces fuel after = some (pieces, rest)) :
    readPieces (fuel + 1) ('\\' :: cs) = some (p :: pieces, rest) := by
  rw [readPieces, hp]
  show (readPieces fuel after).bind _ = _
  rw [h]
  rfl

theorem readPieces_print (h : ∀ p ∈ pieces, p.Legible) (hfuel : pieces.length < fuel) :
    readPieces fuel (pieces.flatMap printPiece ++ '"' :: rest) = some (pieces, rest) := by
  induction pieces generalizing fuel with
  | nil =>
      cases fuel with
      | zero => cases hfuel
      | succ fuel => rfl
  | cons p pieces ih =>
      cases fuel with
      | zero => cases hfuel
      | succ fuel =>
          obtain ⟨hp, hpieces⟩ := List.forall_mem_cons.mp h
          have hrest := ih hpieces (Nat.lt_of_succ_lt_succ hfuel)
          cases p with
          | plain c => exact readPieces_of_plain hp hrest
          | escaped u => exact readPieces_of_escape (readEscape_unit hp) hrest

theorem length_le_flatMap (pieces : List Piece) : pieces.length ≤ (pieces.flatMap printPiece).length := by
  induction pieces with
  | nil => exact Nat.le_refl 0
  | cons p pieces ih =>
      have hp : 0 < (printPiece p).length := by cases p <;> exact Nat.succ_pos _
      rw [List.flatMap_cons, List.length_append, List.length_cons]
      omega

theorem readText_print (h : ∀ p ∈ pieces, p.Legible) :
    readText (pieces.flatMap printPiece ++ '"' :: rest) = some (pieces, rest) := by
  refine readPieces_print h ?_
  have hlength := length_le_flatMap pieces
  rw [List.length_append, List.length_cons]
  omega

end Texts

/-- A value whose texts are legible. -/
inductive Legible : Json → Prop where
  | null : Legible null
  | bool (b : Bool) : Legible (bool b)
  | natural (v : Nat) : Legible (natural v)
  | otherNumber : Legible otherNumber
  | text {pieces : List Piece} (h : ∀ p ∈ pieces, p.Legible) : Legible (text pieces)
  | array {items : List Json} (h : ∀ j ∈ items, Legible j) : Legible (array items)
  | object {members : List (List Piece × Json)} (hnames : ∀ m ∈ members, ∀ p ∈ m.1, p.Legible)
      (hvalues : ∀ m ∈ members, Legible m.2) : Legible (object members)

section Values

variable {j : Json} {items : List Json} {members : List (List Piece × Json)} {rest : List Char} {fuel : Nat}

/-- The text of a value is read as the value, whatever follows that does not go on with a number. -/
def ReadsBack (j : Json) : Prop :=
  ∀ fuel rest, (print j).length ≤ fuel → Ends rest → readValue fuel (print j ++ rest) = some (j, rest)

theorem readValue_digit {d : Nat} (hd : d < 10) (cs : List Char) :
    readValue (fuel + 1) (Char.ofNat (48 + d) :: cs) = readUnsigned (Char.ofNat (48 + d) :: cs) := by
  match d, hd with
  | 0, _ | 1, _ | 2, _ | 3, _ | 4, _ | 5, _ | 6, _ | 7, _ | 8, _ | 9, _ => rfl

/-- A text begins with a character that is no blank and closes nothing. -/
theorem exists_print_eq_cons (j : Json) : ∃ c cs, print j = c :: cs ∧ isBlank c = false ∧ c ≠ ']' := by
  cases j with
  | null => exact ⟨_, _, rfl, rfl, by decide⟩
  | bool b => cases b <;> exact ⟨_, _, rfl, rfl, by decide⟩
  | natural v =>
      obtain ⟨d, hd, digits, hdecimal, -⟩ := decimal_eq_cons v
      have hall : ∀ d : Fin 10, isBlank (Char.ofNat (48 + d)) = false ∧ Char.ofNat (48 + d) ≠ ']' := by decide
      exact ⟨_, digits, hdecimal, hall ⟨d, hd⟩⟩
  | otherNumber => exact ⟨_, _, rfl, rfl, by decide⟩
  | text pieces => exact ⟨_, _, rfl, rfl, by decide⟩
  | array items => exact ⟨_, _, rfl, rfl, by decide⟩
  | object members => exact ⟨_, _, rfl, rfl, by decide⟩

theorem readsBack_of_succ (h : ∀ fuel rest, (print j).length ≤ fuel + 1 → Ends rest →
    readValue (fuel + 1) (print j ++ rest) = some (j, rest)) : ReadsBack j := by
  intro fuel rest hfuel hrest
  obtain ⟨c, cs, hprint, -⟩ := exists_print_eq_cons j
  cases fuel with
  | zero =>
      rw [hprint] at hfuel
      cases hfuel
  | succ fuel => exact h fuel rest hfuel hrest

theorem exists_printItems_eq_cons (j : Json) (items : List Json) :
    ∃ c cs, printItems (j :: items) = c :: cs ∧ isBlank c = false ∧ c ≠ ']' := by
  obtain ⟨c, cs, hprint, hc⟩ := exists_print_eq_cons j
  cases items with
  | nil => exact ⟨c, cs, hprint, hc⟩
  | cons k items => exact ⟨c, cs ++ ',' :: printItems (k :: items), congrArg (· ++ _) hprint, hc⟩

theorem skipBlanks_cons {c : Char} (h : isBlank c = false) (cs : List Char) : skipBlanks (c :: cs) = c :: cs :=
  List.dropWhile_cons_of_neg (by rw [h]; exact nofun)

theorem readItems_last {cs : List Char} (h : readValue fuel cs = some (j, ']' :: rest)) :
    readItems (fuel + 1) cs = some ([j], rest) := by
  rw [readItems, h]
  rfl

theorem readItems_more {cs after : List Char} (h : readValue fuel cs = some (j, ',' :: after))
    (hitems : readItems fuel after = some (items, rest)) : readItems (fuel + 1) cs = some (j :: items, rest) := by
  rw [readItems, h]
  show (readItems fuel after).bind _ = _
  rw [hitems]
  rfl

theorem readValue_items {c : Char} {cs : List Char} (hblank : isBlank c = false) (hc : c ≠ ']')
    (h : readItems fuel (c :: cs) = some (items, rest)) :
    readValue (fuel + 1) ('[' :: c :: cs) = some (array items, rest) := by
  have hopen : isBlank '[' = false := by decide
  simp only [readValue, skipBlanks_cons hopen, skipBlanks_cons hblank]
  split
  next heq => exact absurd (List.cons.inj heq).1 hc
  next =>
    rw [h]
    rfl

theorem readMembers_last {name : List Piece} {cs after : List Char} (hname : readText cs = some (name, ':' :: after))
    (h : readValue fuel after = some (j, '\x7d' :: rest)) :
    readMembers (fuel + 1) ('"' :: cs) = some ([(name, j)], rest) := by
  rw [readMembers, skipBlanks_cons (by decide)]
  show (readText cs).bind _ = _
  rw [hname]
  show (readValue fuel after).bind _ = _
  rw [h]
  rfl

theorem readMembers_more {name : List Piece} {cs after later : List Char}
    (hname : readText cs = some (name, ':' :: after)) (h : readValue fuel after = some (j, ',' :: later))
    (hmembers : readMembers fuel later = some (members, rest)) :
    readMembers (fuel + 1) ('"' :: cs) = some ((name, j) :: members, rest) := by
  rw [readMembers, skipBlanks_cons (by decide)]
  show (readText cs).bind _ = _
  rw [hname]
  show (readValue fuel after).bind _ = _
  rw [h]
  show (readMembers fuel later).bind _ = _
  rw [hmembers]
  rfl

theorem readValue_members {cs : List Char} (h : readMembers fuel ('"' :: cs) = some (members, rest)) :
    readValue (fuel + 1) ('\x7b' :: '"' :: cs) = some (object members, rest) := by
  rw [readValue, skipBlanks_cons (by decide)]
  show (readMembers fuel ('"' :: cs)).map _ = _
  rw [h]
  rfl

theorem printItems_cons (j k : Json) (items : List Json) :
    printItems (j :: k :: items) = print j ++ ',' :: printItems (k :: items) := rfl

theorem printMembers_singleton (name : List Piece) (j : Json) :
    printMembers [(name, j)] = '"' :: (name.flatMap printPiece ++ ['"'] ++ ':' :: print j) := rfl

theorem printMembers_cons (name : List Piece) (j : Json) (m : List Piece × Json) (members : List (List Piece × Json)) :
    printMembers ((name, j) :: m :: members) =
      '"' :: (name.flatMap printPiece ++ ['"'] ++ ':' :: print j ++ ',' :: printMembers (m :: members)) := rfl

theorem readItems_print (hitems : ∀ j ∈ items, ReadsBack j) (hne : items ≠ [])
    (hfuel : (printItems items).length < fuel) :
    readItems fuel (printItems items ++ ']' :: rest) = some (items, rest) := by
  induction items generalizing fuel with
  | nil => exact absurd rfl hne
  | cons j items ih =>
      obtain ⟨hj, hlater⟩ := List.forall_mem_cons.mp hitems
      cases fuel with
      | zero => cases hfuel
      | succ fuel =>
          cases items with
          | nil =>
              change (print j).length < fuel + 1 at hfuel
              exact readItems_last (hj fuel _ (by omega) (ends_of_mem (by decide)))
          | cons k items =>
              rw [printItems_cons, List.length_append, List.length_cons] at hfuel
              rw [printItems_cons, List.append_assoc]
              exact readItems_more (hj fuel _ (by omega) (ends_of_mem (by decide)))
                (ih hlater (List.cons_ne_nil k items) (by omega))

theorem readMembers_print (hnames : ∀ m ∈ members, ∀ p ∈ m.1, p.Legible)
    (hvalues : ∀ m ∈ members, ReadsBack m.2) (hne : members ≠ [])
    (hfuel : (printMembers members).length < fuel) :
    readMembers fuel (printMembers members ++ '\x7d' :: rest) = some (members, rest) := by
  induction members generalizing fuel with
  | nil => exact absurd rfl hne
  | cons m members ih =>
      obtain ⟨name, j⟩ := m
      obtain ⟨hname, hnames⟩ := List.forall_mem_cons.mp hnames
      obtain ⟨(hj : ReadsBack j), hvalues⟩ := List.forall_mem_cons.mp hvalues
      cases fuel with
      | zero => cases hfuel
      | succ fuel =>
          cases members with
          | nil =>
              rw [printMembers_singleton] at hfuel ⊢
              simp only [List.length_cons, List.length_append] at hfuel
              simp only [List.cons_append, List.append_assoc, List.nil_append]
              exact readMembers_last (readText_print hname) (hj fuel _ (by omega) (ends_of_mem (by decide)))
          | cons m members =>
              rw [printMembers_cons] at hfuel ⊢
              simp only [List.length_cons, List.length_append] at hfuel
              simp only [List.cons_append, List.append_assoc, List.nil_append]
              exact readMembers_more (readText_print hname) (hj fuel _ (by omega) (ends_of_mem (by decide)))
                (ih hnames hvalues (List.cons_ne_nil m members) (by omega))

theorem readsBack_array (h : ∀ j ∈ items, ReadsBack j) : ReadsBack (array items) := by
  refine readsBack_of_succ fun fuel rest hfuel _ => ?_
  cases items with
  | nil => rfl
  | cons j items =>
      have hprint : print (array (j :: items)) ++ rest = '[' :: (printItems (j :: items) ++ ']' :: rest) := by
        rw [print, List.append_assoc]
        rfl
      have hlength := congrArg List.length hprint
      simp only [List.length_cons, List.length_append] at hlength
      obtain ⟨c, cs, hitems, hblank, hc⟩ := exists_printItems_eq_cons j items
      have hread : readItems fuel (printItems (j :: items) ++ ']' :: rest) = some (j :: items, rest) :=
        readItems_print h (List.cons_ne_nil j items) (by omega)
      rw [hprint]
      rw [hitems] at hread ⊢
      exact readValue_items hblank hc hread

theorem exists_printMembers_eq_cons (m : List Piece × Json) (members : List (List Piece × Json)) :
    ∃ cs, printMembers (m :: members) = '"' :: cs := by
  cases members with
  | nil => exact ⟨_, rfl⟩
  | cons k members => exact ⟨_, rfl⟩

theorem readsBack_object (hnames : ∀ m ∈ members, ∀ p ∈ m.1, p.Legible) (hvalues : ∀ m ∈ members, ReadsBack m.2) :
    ReadsBack (object members) := by
  refine readsBack_of_succ fun fuel rest hfuel _ => ?_
  cases members with
  | nil => rfl
  | cons m members =>
      have hprint : print (object (m :: members)) ++ rest =
          '\x7b' :: (printMembers (m :: members) ++ '\x7d' :: rest) := by
        rw [print, List.append_assoc]
        rfl
      have hlength := congrArg List.length hprint
      simp only [List.length_cons, List.length_append] at hlength
      obtain ⟨cs, hmembers⟩ := exists_printMembers_eq_cons m members
      have hread : readMembers fuel (printMembers (m :: members) ++ '\x7d' :: rest) = some (m :: members, rest) :=
        readMembers_print hnames hvalues (List.cons_ne_nil m members) (by omega)
      rw [hprint]
      rw [hmembers] at hread ⊢
      exact readValue_members hread

theorem readsBack_natural (v : Nat) : ReadsBack (natural v) := by
  refine readsBack_of_succ fun fuel rest _ hrest => ?_
  obtain ⟨d, hd, digits, hdecimal, -⟩ := decimal_eq_cons v
  have hread := readUnsigned_decimal v hrest
  rw [print]
  rw [hdecimal] at hread ⊢
  rw [List.cons_append, readValue_digit hd]
  exact hread

theorem readsBack_otherNumber : ReadsBack otherNumber := by
  refine readsBack_of_succ fun fuel rest _ hrest => ?_
  have hzero : decimal 0 = ['0'] := decimal_of_lt (by decide)
  have hread := readUnsigned_decimal 0 hrest
  rw [hzero] at hread
  show (readUnsigned ('0' :: rest)).map _ = _
  rw [show '0' :: rest = ['0'] ++ rest from rfl, hread]
  rfl

theorem readsBack_text {pieces : List Piece} (h : ∀ p ∈ pieces, p.Legible) : ReadsBack (text pieces) := by
  refine readsBack_of_succ fun fuel rest _ _ => ?_
  have hprint : print (text pieces) ++ rest = '"' :: (pieces.flatMap printPiece ++ '"' :: rest) := by
    rw [print, printText, List.append_assoc]
    rfl
  rw [hprint]
  show (readText _).map _ = _
  rw [readText_print h]
  rfl

theorem Legible.readsBack (h : Legible j) : ReadsBack j := by
  induction h with
  | null => exact readsBack_of_succ fun _ _ _ _ => rfl
  | bool b => cases b <;> exact readsBack_of_succ fun _ _ _ _ => rfl
  | natural v => exact readsBack_natural v
  | otherNumber => exact readsBack_otherNumber
  | text h => exact readsBack_text h
  | array _ ih => exact readsBack_array ih
  | object hnames _ ih => exact readsBack_object hnames ih

/-- **A value is read back from its text.** -/
theorem parse_render (h : Legible j) : parse (render j) = some j := by
  have hread := h.readsBack (2 * (print j).length + 2) [] (by omega) .nil
  rw [List.append_nil] at hread
  rw [parse, render, String.toList_ofList, readAll, hread]
  rfl

end Values

end QuorumChain.Json
