import RemoteFs.Utf8Lossy
import Mathlib.Data.List.Infix

/-! # Percent-encoding

Encoding escapes every byte outside the unreserved set. Decoding reads the escapes, and leaves a
percent sign that no two hexadecimal digits follow. -/
namespace PercentEncoding

open Utf8Lossy

def unreserved (b : UInt8) : Bool :=
  let c := Char.ofNat b.toNat
  b < 128 && (c.isAlphanum || c == '-' || c == '.' || c == '_' || c == '~')

def hexDigit (n : ℕ) : Char := if n < 10 then Char.ofNat (48 + n) else Char.ofNat (55 + n)

def hexValue (c : Char) : Option ℕ :=
  if '0' ≤ c ∧ c ≤ '9' then some (c.toNat - 48)
  else if 'A' ≤ c ∧ c ≤ 'F' then some (c.toNat - 55)
  else if 'a' ≤ c ∧ c ≤ 'f' then some (c.toNat - 87)
  else none

def encodeByte (b : UInt8) : List Char :=
  if unreserved b then [Char.ofNat b.toNat]
  else ['%', hexDigit (b.toNat / 16), hexDigit (b.toNat % 16)]

def encode (bytes : List UInt8) : List Char := bytes.flatMap encodeByte

def escaped (c h l : Char) : Option UInt8 :=
  if c = '%' then
    match hexValue h, hexValue l with
    | some high, some low => some (UInt8.ofNat (16 * high + low))
    | _, _ => none
  else none

def decode : List Char → List UInt8
  | c :: h :: l :: text =>
    match escaped c h l with
    | some b => b :: decode text
    | none => String.utf8EncodeChar c ++ decode (h :: l :: text)
  | text => utf8 text

/-! Decoding undoes encoding. -/

theorem hexValue_hexDigit : ∀ n < 16, hexValue (hexDigit n) = some n := by decide

theorem escaped_hexDigits (b : UInt8) :
    escaped '%' (hexDigit (b.toNat / 16)) (hexDigit (b.toNat % 16)) = some b := by
  have hb : b.toNat < 256 := b.toNat_lt
  unfold escaped
  rw [if_pos rfl, hexValue_hexDigit _ (by omega), hexValue_hexDigit _ (by omega)]
  dsimp only
  rw [Nat.div_add_mod, UInt8.ofNat_toNat]

theorem escaped_isSome {c h l : Char} (hsome : (escaped c h l).isSome) :
    c = '%' ∧ (hexValue h).isSome ∧ (hexValue l).isSome := by
  unfold escaped at hsome
  split_ifs at hsome with hc
  · refine ⟨hc, ?_⟩
    cases hh : hexValue h <;> cases hl : hexValue l <;> simp_all
  · cases hsome

theorem decode_cons {c : Char} (hc : c ≠ '%') (text : List Char) :
    decode (c :: text) = String.utf8EncodeChar c ++ decode text := by
  rcases text with _ | ⟨h, _ | ⟨l, text⟩⟩
  · rfl
  · rfl
  · rw [decode, escaped, if_neg hc]

theorem ofNat_toNat {n : ℕ} (h : n < 128) : (Char.ofNat n).toNat = n := by
  have hvalid : n.isValidChar := Or.inl (by omega)
  unfold Char.ofNat
  rw [dif_pos hvalid]
  rfl

theorem encode_ascii {b : UInt8} (h : b < 128) :
    String.utf8EncodeChar (Char.ofNat b.toNat) = [b] := by
  have hb : b.toNat < 128 := h
  have hval : (Char.ofNat b.toNat).val.toNat = b.toNat := ofNat_toNat hb
  unfold String.utf8EncodeChar
  rw [hval]
  dsimp only
  rw [if_pos (by omega), UInt8.ofNat_toNat]

theorem unreserved_ascii {b : UInt8} (h : unreserved b) : b < 128 := by
  unfold unreserved at h
  rw [Bool.and_eq_true, decide_eq_true_iff] at h
  exact h.1

theorem unreserved_ofNat_toNat {b : UInt8} (h : unreserved b) :
    unreserved (UInt8.ofNat (Char.ofNat b.toNat).toNat) := by
  have hb : b.toNat < 128 := unreserved_ascii h
  rw [ofNat_toNat hb, UInt8.ofNat_toNat]
  exact h

theorem decode_encodeByte (b : UInt8) (text : List Char) :
    decode (encodeByte b ++ text) = b :: decode text := by
  unfold encodeByte
  split
  · next h =>
    have hne : Char.ofNat b.toNat ≠ '%' := by
      intro hpercent
      have hunreserved := unreserved_ofNat_toNat h
      rw [hpercent] at hunreserved
      revert hunreserved
      decide
    rw [List.singleton_append, decode_cons hne, encode_ascii (unreserved_ascii h),
      List.singleton_append]
  · rw [List.cons_append, List.cons_append, List.cons_append, List.nil_append, decode,
      escaped_hexDigits]

theorem decode_encode (bytes : List UInt8) : decode (encode bytes) = bytes := by
  induction bytes with
  | nil => rfl
  | cons b bytes ih =>
    rw [encode, List.flatMap_cons, decode_encodeByte]
    exact congrArg (b :: ·) ih

theorem unreserved_hexDigit :
    ∀ n < 16, unreserved (UInt8.ofNat (hexDigit n).toNat) = true := by decide

theorem mem_encode {c : Char} {bytes : List UInt8} (h : c ∈ encode bytes) :
    c = '%' ∨ unreserved (UInt8.ofNat c.toNat) := by
  obtain ⟨b, -, hb⟩ := List.mem_flatMap.mp h
  have hsize : b.toNat < 256 := b.toNat_lt
  unfold encodeByte at hb
  split at hb
  · next hunreserved =>
    rw [List.mem_singleton] at hb
    rw [hb]
    exact Or.inr (unreserved_ofNat_toNat hunreserved)
  · simp only [List.mem_cons, List.not_mem_nil, or_false] at hb
    obtain rfl | rfl | rfl := hb
    · exact Or.inl rfl
    · exact Or.inr (unreserved_hexDigit _ (by omega))
    · exact Or.inr (unreserved_hexDigit _ (by omega))

/-! Text without escapes is read as it stands, and each escape costs ASCII characters. -/

def Unescaped (text : List Char) : Prop :=
  ∀ c h l, [c, h, l] <:+: text → escaped c h l = none

theorem unescaped_of_no_percent {text : List Char} (hpercent : '%' ∉ text) : Unescaped text := by
  intro c h l hpart
  have hc : c ≠ '%' := by
    rintro rfl
    exact hpercent (hpart.subset List.mem_cons_self)
  exact if_neg hc

theorem decode_unescaped {text : List Char} (hplain : Unescaped text) :
    decode text = utf8 text := by
  fun_induction decode text with
  | case1 c h l text b hb ih =>
    have hnone := hplain c h l (List.prefix_append [c, h, l] text).isInfix
    cases hnone.symm.trans hb
  | case2 c h l text hnone ih =>
    rw [ih fun c' h' l' hpart => hplain c' h' l' (hpart.trans (List.suffix_cons c _).isInfix)]
    rfl
  | case3 text hshort => rfl

theorem unescaped_cons {c h l : Char} {text : List Char} (hnone : escaped c h l = none)
    (hplain : Unescaped (h :: l :: text)) : Unescaped (c :: h :: l :: text) := by
  intro c' h' l' hpart
  rcases List.infix_cons_iff.mp hpart with hfront | hpart
  · obtain ⟨rest, hrest⟩ := hfront
    simp only [List.cons_append, List.cons.injEq] at hrest
    obtain ⟨rfl, rfl, rfl, -⟩ := hrest
    exact hnone
  · exact hplain c' h' l' hpart

theorem unescaped_short {text : List Char} (hshort : text.length < 3) : Unescaped text := by
  intro c h l hpart
  have hlength := hpart.length_le
  simp only [List.length_cons, List.length_nil] at hlength
  omega

theorem hexValue_ascii {c : Char} (h : (hexValue c).isSome) : ascii c := by
  have hf : c.toNat ≤ 'f'.toNat := by
    unfold hexValue at h
    split_ifs at h with hdigit hupper hlower
    · exact Nat.le_trans (m := '9'.toNat) hdigit.2 (by decide)
    · exact Nat.le_trans (m := 'F'.toNat) hupper.2 (by decide)
    · exact hlower.2
    · cases h
  exact decide_eq_true (Nat.lt_of_le_of_lt hf (by decide))

theorem ascii_decode (text : List Char) :
    (decode text).countP asciiByte ≤ text.countP ascii ∧
      (¬Unescaped text → (decode text).countP asciiByte < text.countP ascii) := by
  fun_induction decode text with
  | case1 c h l text b hb ih =>
    -- three ASCII characters become one byte
    obtain ⟨rfl, hhigh, hlow⟩ := escaped_isSome (hb ▸ rfl : (escaped c h l).isSome)
    have hcount : ('%' :: h :: l :: text).countP ascii = text.countP ascii + 3 := by
      rw [List.countP_cons_of_pos (by decide), List.countP_cons_of_pos (hexValue_ascii hhigh),
        List.countP_cons_of_pos (hexValue_ascii hlow)]
    have hbyte : (b :: decode text).countP asciiByte ≤ (decode text).countP asciiByte + 1 := by
      rw [List.countP_cons]
      split <;> omega
    have hrest := ih.1
    rw [hcount]
    exact ⟨by omega, fun _ => by omega⟩
  | case2 c h l text hnone ih =>
    have hcount : (c :: h :: l :: text).countP ascii =
        [c].countP ascii + (h :: l :: text).countP ascii := by
      rw [← List.countP_append, List.singleton_append]
    rw [List.countP_append, ascii_encode, hcount]
    refine ⟨Nat.add_le_add_left ih.1 _, fun hescape => Nat.add_lt_add_left (ih.2 ?_) _⟩
    exact fun hplain => hescape (unescaped_cons hnone hplain)
  | case3 text hshort =>
    have hlength : text.length < 3 := by
      rcases text with _ | ⟨c, _ | ⟨h, _ | ⟨l, text⟩⟩⟩
      · exact Nat.zero_lt_succ 2
      · exact Nat.one_lt_succ_succ 1
      · exact Nat.lt_succ_self 2
      · exact (hshort c h l text rfl).elim
    exact ⟨(ascii_utf8 text).le, fun hescape => absurd (unescaped_short hlength) hescape⟩

end PercentEncoding
