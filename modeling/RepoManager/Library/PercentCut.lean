import RepoManager.Library.UrlPath

/-!
# Cutting a path and its encoding

A path and a percent-encoding of it are cut in two, each where some rule says. When do the two
rests still belong together? `rest_iff_sameCut` answers it by what was cut off.

Usually what is cut off from the encoding must decode to what is cut off from the path. But a cut
may also go through an escape, and then the rest can only belong to the path when the digits left
over stand for themselves: `%3` and a decimal digit is the escape of that digit.
-/

open LexicalPath

namespace UrlPath

/-- A decimal digit. -/
def isDecimal (byte : UInt8) : Bool := 0x30 ≤ byte ∧ byte ≤ 0x39

/-- The digit `3`. -/
def three : UInt8 := 0x33

/-- The byte that two hexadecimal digits stand for. -/
def escaped (high low : UInt8) : Option UInt8 :=
  match hexValue high, hexValue low with
  | some high, some low => some (16 * high + low)
  | _, _ => none

/-- What the cut of an encoded path takes off, when its rest encodes the rest of the path. -/
inductive SameCut (matched : ByteString) : ByteString → ByteString → Prop
  | all (rawMatched : ByteString) : SameCut matched rawMatched []
  | decoded {rawMatched : ByteString} (rawRest : ByteString)
    (h : decode rawMatched = some matched) : SameCut matched rawMatched rawRest
  | afterPercent {front : ByteString} {digit : UInt8} (back : ByteString)
    (hdigit : isDecimal digit) (h : decode front = some (matched ++ [three])) :
    SameCut matched (front ++ [percent]) (three :: digit :: back)
  | afterThree {front : ByteString} {digit : UInt8} (back : ByteString)
    (hdigit : isDecimal digit) (h : decode front = some matched) :
    SameCut matched (front ++ [percent, three]) (digit :: back)

/-- An escape, and what follows it. -/
theorem decode_escape (high low : UInt8) (rest : ByteString) :
    decode (percent :: high :: low :: rest) =
      (escaped high low).bind fun byte => (decode rest).map fun bytes => byte :: bytes := by
  rw [decode_percent, escaped]
  cases hexValue high <;> cases hexValue low <;> rfl

/-- What is decoded has two digits after a percent sign. -/
theorem exists_digits {rest whole : ByteString} (h : decode (percent :: rest) = some whole) :
    ∃ high low back, rest = high :: low :: back := by
  by_contra hnot
  have hshort := short_of_not_cons_cons fun high low back heq => hnot ⟨high, low, back, heq⟩
  rcases hshort with rfl | ⟨high, rfl⟩
  · have hnone : decode [percent] = none := rfl
    rw [hnone] at h
    cases h
  · have hnone : decode [percent, high] = none := rfl
    rw [hnone] at h
    cases h

/-- The digits of an escape are no percent signs. -/
theorem escaped_ne_percent {high low byte : UInt8} (h : escaped high low = some byte) :
    high ≠ percent ∧ low ≠ percent := by
  have hnone : hexValue percent = none := by decide
  constructor
  · rintro rfl
    rw [escaped, hnone] at h
    cases h
  · rintro rfl
    rw [escaped, hnone] at h
    revert h
    cases hexValue high <;> exact fun h => nomatch h

/-- What a first digit contributes to an escape. -/
theorem hexValue_high (high : UInt8) : ∀ value ∈ hexValue high,
    (16 * value = 0x30 ↔ high = three) ∧ 16 * value ≠ 0x37 ∧ 16 * value ≠ 0x57 := by
  apply forall_byte high
  decide +kernel

/-- How far the value of a last digit is from its byte. -/
theorem hexValue_low (low : UInt8) : ∀ value ∈ hexValue low,
    (isDecimal low ∧ low - value = 0x30) ∨
      (¬ isDecimal low ∧ (low - value = 0x37 ∨ low - value = 0x57)) := by
  apply forall_byte low
  decide +kernel

/-- Only a decimal digit has a value that is `0x30` less. -/
theorem hexValue_of_isDecimal (low : UInt8) : isDecimal low → hexValue low = some (low - 0x30) := by
  apply forall_byte low
  decide +kernel

/-- An escape that stands for its own last digit. -/
theorem escaped_eq_low_iff (high low : UInt8) :
    escaped high low = some low ↔ high = three ∧ isDecimal low := by
  constructor
  · intro h
    unfold escaped at h
    split at h
    · next first second hfirst hsecond =>
      obtain ⟨hthree, hletter, hletter'⟩ := hexValue_high high first hfirst
      have hsum : 16 * first = low - second := by
        rw [← Option.some.inj h, UInt8.add_sub_cancel]
      rcases hexValue_low low second hsecond with ⟨hdigit, hdiff⟩ | ⟨-, hdiff | hdiff⟩
      · exact ⟨hthree.mp (hsum.trans hdiff), hdigit⟩
      · exact absurd (hsum.trans hdiff) hletter
      · exact absurd (hsum.trans hdiff) hletter'
    · cases h
  · rintro ⟨rfl, hdigit⟩
    rw [escaped, hexValue_of_isDecimal low hdigit]
    change some (0x30 + (low - 0x30)) = some low
    rw [UInt8.add_comm, UInt8.sub_add_cancel]

/-- A part that decodes on its own does not touch what follows. -/
theorem decode_append {left before : ByteString} (h : decode left = some before)
    (right : ByteString) :
    decode (left ++ right) = (decode right).map fun after => before ++ after := by
  induction left using decode.induct generalizing before with
  | case1 =>
    obtain rfl := Option.some.inj h
    simp
  | case2 high low rest highValue lowValue hlow hhigh ih =>
    simp only [decode_percent, hhigh, hlow] at h
    obtain ⟨inner, hinner, rfl⟩ := Option.map_eq_some_iff.mp h
    simp only [List.cons_append, decode_percent, hhigh, hlow, ih hinner, Option.map_map]
    rfl
  | case3 high low rest hnone =>
    rw [decode_percent_of_malformed hnone] at h
    cases h
  | case4 rest hshort =>
    rcases short_of_not_cons_cons hshort with rfl | ⟨byte, rfl⟩ <;> cases h
  | case5 byte rest hbyte ih =>
    rw [decode_cons_of_ne hbyte] at h
    obtain ⟨inner, hinner, rfl⟩ := Option.map_eq_some_iff.mp h
    rw [List.cons_append, decode_cons_of_ne hbyte, ih hinner, Option.map_map]
    rfl

/-- What the left part of a decodable text is: decodable, or cut inside its last escape. -/
inductive Cut (left right : ByteString) : Prop
  | clean {before : ByteString} (h : decode left = some before)
  | afterPercent {front back before : ByteString} {high low byte : UInt8}
    (hleft : left = front ++ [percent]) (hright : right = high :: low :: back)
    (hfront : decode front = some before) (hbyte : escaped high low = some byte)
  | afterDigit {front back before : ByteString} {high low byte : UInt8}
    (hleft : left = front ++ [percent, high]) (hright : right = low :: back)
    (hfront : decode front = some before) (hbyte : escaped high low = some byte)

/-- One more byte or escape in front of the left part. -/
theorem Cut.prepend {piece decoded left right : ByteString} (hpiece : decode piece = some decoded)
    (h : Cut left right) : Cut (piece ++ left) right := by
  cases h with
  | clean h => exact .clean (by rw [decode_append hpiece, h]; rfl)
  | afterPercent hleft hright hfront hbyte =>
    exact .afterPercent (by rw [hleft, List.append_assoc]) hright
      (by rw [decode_append hpiece, hfront]; rfl) hbyte
  | afterDigit hleft hright hfront hbyte =>
    exact .afterDigit (by rw [hleft, List.append_assoc]) hright
      (by rw [decode_append hpiece, hfront]; rfl) hbyte

/-- Wherever a decodable text is cut. -/
theorem cut_of_decode {left right whole : ByteString} (h : decode (left ++ right) = some whole) :
    Cut left right := by
  have hnil : decode [] = some [] := rfl
  induction left using decode.induct generalizing whole with
  | case1 => exact .clean rfl
  | case2 high low rest highValue lowValue hlow hhigh ih =>
    have hpiece : decode [percent, high, low] = some [16 * highValue + lowValue] := by
      rw [decode_percent, hhigh, hlow]
      rfl
    have hsplit : decode ([percent, high, low] ++ (rest ++ right)) = some whole := h
    rw [decode_append hpiece] at hsplit
    obtain ⟨inner, hinner, -⟩ := Option.map_eq_some_iff.mp hsplit
    exact (ih hinner).prepend hpiece
  | case3 high low rest hnone =>
    have hfail : decode (percent :: high :: low :: (rest ++ right)) = some whole := h
    rw [decode_percent_of_malformed hnone] at hfail
    cases hfail
  | case4 rest hshort =>
    rcases short_of_not_cons_cons hshort with rfl | ⟨high, rfl⟩
    · obtain ⟨high, low, back, rfl⟩ := exists_digits h
      have hsplit : decode (percent :: high :: low :: back) = some whole := h
      rw [decode_escape] at hsplit
      obtain ⟨byte, hbyte, -⟩ := Option.bind_eq_some_iff.mp hsplit
      exact .afterPercent (show [percent] = [] ++ [percent] from rfl) rfl hnil hbyte
    · obtain ⟨digit, low, back, hright⟩ := exists_digits h
      obtain ⟨rfl, rfl⟩ := List.cons.inj hright
      have hsplit : decode (percent :: high :: low :: back) = some whole := h
      rw [decode_escape] at hsplit
      obtain ⟨byte, hbyte, -⟩ := Option.bind_eq_some_iff.mp hsplit
      exact .afterDigit (show [percent, high] = [] ++ [percent, high] from rfl) rfl hnil hbyte
  | case5 byte rest hbyte ih =>
    have hpiece : decode [byte] = some [byte] := by
      rw [decode_cons_of_ne hbyte]
      rfl
    have hsplit : decode ([byte] ++ (rest ++ right)) = some whole := h
    rw [decode_append hpiece] at hsplit
    obtain ⟨inner, hinner, -⟩ := Option.map_eq_some_iff.mp hsplit
    exact (ih hinner).prepend hpiece

/-- What the whole decodes to when the left part ends inside an escape. -/
theorem decode_through {front before back whole : ByteString} {high low byte : UInt8}
    (hfront : decode front = some before) (hbyte : escaped high low = some byte)
    (h : decode (front ++ percent :: high :: low :: back) = some whole) :
    ∃ after, decode back = some after ∧ whole = before ++ byte :: after := by
  rw [decode_append hfront, decode_escape, hbyte, Option.bind_some, Option.map_map] at h
  obtain ⟨after, hafter, rfl⟩ := Option.map_eq_some_iff.mp h
  exact ⟨after, hafter, rfl⟩

/-- Digits that stand for themselves. -/
theorem decode_digits {high low byte : UInt8} (hbyte : escaped high low = some byte)
    {back after : ByteString} (hback : decode back = some after) :
    decode (low :: back) = some (low :: after) ∧
      decode (high :: low :: back) = some (high :: low :: after) := by
  obtain ⟨hhigh, hlow⟩ := escaped_ne_percent hbyte
  have hshort : decode (low :: back) = some (low :: after) := by
    rw [decode_cons_of_ne hlow, hback]
    rfl
  refine ⟨hshort, ?_⟩
  rw [decode_cons_of_ne hhigh, hshort]
  rfl

/-- The rest of the encoding is empty or encodes the rest of the path exactly for these cuts. -/
theorem rest_iff_sameCut {matched rest rawMatched rawRest : ByteString}
    (h : decode (rawMatched ++ rawRest) = some (matched ++ rest)) :
    (rawRest = [] ∨ decode rawRest = some rest) ↔ SameCut matched rawMatched rawRest := by
  constructor
  · rintro (rfl | hrest)
    · exact .all rawMatched
    · cases cut_of_decode h with
      | clean hbefore =>
        rw [decode_append hbefore, hrest, Option.map_some, Option.some.injEq] at h
        exact .decoded rawRest (List.append_cancel_right h ▸ hbefore)
      | afterPercent hleft hright hfront hbyte =>
        subst hleft hright
        rw [List.append_assoc] at h
        obtain ⟨after, hback, hwhole⟩ := decode_through hfront hbyte h
        rw [(decode_digits hbyte hback).2, Option.some.injEq] at hrest
        subst hrest
        rw [List.append_cons, List.append_cons, List.append_cons _ _ after] at hwhole
        obtain ⟨hmatched, hlast⟩ := List.append_inj' (List.append_cancel_right hwhole) rfl
        rw [List.singleton_inj] at hlast
        subst hlast
        obtain ⟨rfl, hdigit⟩ := (escaped_eq_low_iff _ _).mp hbyte
        exact .afterPercent _ hdigit (hmatched ▸ hfront)
      | afterDigit hleft hright hfront hbyte =>
        subst hleft hright
        rw [List.append_assoc] at h
        obtain ⟨after, hback, hwhole⟩ := decode_through hfront hbyte h
        rw [(decode_digits hbyte hback).1, Option.some.injEq] at hrest
        subst hrest
        rw [List.append_cons, List.append_cons _ _ after] at hwhole
        obtain ⟨hmatched, hlast⟩ := List.append_inj' (List.append_cancel_right hwhole) rfl
        rw [List.singleton_inj] at hlast
        subst hlast
        obtain ⟨rfl, hdigit⟩ := (escaped_eq_low_iff _ _).mp hbyte
        exact .afterThree _ hdigit (hmatched ▸ hfront)
  · intro hcut
    cases hcut with
    | all => exact Or.inl rfl
    | decoded _ hmatched =>
      rw [decode_append hmatched] at h
      obtain ⟨after, hafter, heq⟩ := Option.map_eq_some_iff.mp h
      exact Or.inr (List.append_cancel_left heq ▸ hafter)
    | afterPercent back hdigit hfront =>
      have hbyte := (escaped_eq_low_iff _ _).mpr ⟨rfl, hdigit⟩
      rw [List.append_assoc] at h
      obtain ⟨after, hback, hwhole⟩ := decode_through hfront hbyte h
      rw [List.append_assoc] at hwhole
      rw [List.append_cancel_left hwhole]
      exact Or.inr (decode_digits hbyte hback).2
    | afterThree back hdigit hfront =>
      have hbyte := (escaped_eq_low_iff _ _).mpr ⟨rfl, hdigit⟩
      rw [List.append_assoc] at h
      obtain ⟨after, hback, hwhole⟩ := decode_through hfront hbyte h
      rw [List.append_cancel_left hwhole]
      exact Or.inr (decode_digits hbyte hback).1

end UrlPath
