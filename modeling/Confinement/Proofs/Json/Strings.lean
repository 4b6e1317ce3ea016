import Confinement.Catalog
import Confinement.Proofs.Json.Reading
import Confinement.Proofs.Text.Utf8
import Mathlib.Tactic.SplitIfs

/-!
# JSON strings read back

A character of a JSON string is written as it is or as an escape
(`IsPlainChar`, `escapes_jsonChar`).  A reader takes all plain characters at a
time and then one escape, so a string is read back stretch by stretch
(`reads_textWithin`), whatever its characters are (`reads_string`).
-/

namespace Confinement.Json

open Catalog (jsonChar jsonString)
open Utf8 (encodeChars encodeChars_cons encodeChars_append)

variable {c : Char} {cs : List Char} {b : UInt8} {w rest digits : Bytes} {ds : List Nat} {n : Nat}

/-! ## Plain characters -/

/-- A character that stands for itself in a string. -/
def IsPlainChar (c : Char) : Prop := c ≠ '"' ∧ c ≠ '\\' ∧ 0x20 ≤ c.toNat

instance (c : Char) : Decidable (IsPlainChar c) := inferInstanceAs (Decidable (_ ∧ _ ∧ _))

theorem jsonChar_of_isPlainChar (h : IsPlainChar c) : jsonChar c = [c] := by
  obtain ⟨hquote, hbackslash, hle⟩ := h
  have hcontrol : ∀ d : Char, d.toNat < 0x20 → c ≠ d := by
    rintro d hd rfl
    omega
  rw [jsonChar, if_neg hquote, if_neg hbackslash, if_neg (hcontrol '\x08' (by decide)),
    if_neg (hcontrol '\x0c' (by decide)), if_neg (hcontrol '\n' (by decide)),
    if_neg (hcontrol '\r' (by decide)), if_neg (hcontrol '\t' (by decide)), if_neg (by omega)]

theorem flatMap_jsonChar_of_isPlainChar (h : ∀ c ∈ cs, IsPlainChar c) :
    cs.flatMap jsonChar = cs := by
  induction cs with
  | nil => rfl
  | cons c cs ih =>
      rw [List.flatMap_cons, jsonChar_of_isPlainChar (h c List.mem_cons_self),
        ih fun d hd => h d (List.mem_cons_of_mem c hd)]
      rfl

theorem isPlain_iff : isPlain b ↔ b.toNat ≠ 0x22 ∧ b.toNat ≠ 0x5C ∧ 0x20 ≤ b.toNat := by
  simp [isPlain, ← UInt8.toNat_inj, UInt8.le_iff_toNat_le, and_assoc]

theorem isPlain_of_mem_utf8EncodeChar (h : IsPlainChar c) (hb : b ∈ String.utf8EncodeChar c) :
    isPlain b = true := by
  obtain ⟨first, more, hbytes⟩ := List.exists_cons_of_ne_nil (String.utf8EncodeChar_ne_nil (c := c))
  rw [hbytes] at hb
  obtain ⟨hquote, hbackslash, hle⟩ := h
  have hquote : c.toNat ≠ 0x22 := fun heq => hquote (Char.toNat_inj.mp heq)
  have hbackslash : c.toNat ≠ 0x5C := fun heq => hbackslash (Char.toNat_inj.mp heq)
  -- A character of one byte is that byte; in a longer spelling every byte is at least 0x80.
  cases Utf8.spelling_of_utf8EncodeChar hbytes with
  | one hfirst hv =>
      obtain rfl := List.mem_singleton.mp hb
      exact isPlain_iff.mpr ⟨hv ▸ hquote, hv ▸ hbackslash, hv ▸ hle⟩
  | two hfirst hx hv =>
      simp only [List.mem_cons, List.not_mem_nil, or_false, Utf8.Trails] at hb hx
      rcases hb with rfl | rfl <;> exact isPlain_iff.mpr (by omega)
  | three hfirst hx hlow hhigh hy hv =>
      simp only [List.mem_cons, List.not_mem_nil, or_false, Utf8.Trails] at hb hx hy
      rcases hb with rfl | rfl | rfl <;> exact isPlain_iff.mpr (by omega)
  | four hfirst hx hlow hhigh hy hz hv =>
      simp only [List.mem_cons, List.not_mem_nil, or_false, Utf8.Trails] at hb hx hy hz
      rcases hb with rfl | rfl | rfl | rfl <;> exact isPlain_iff.mpr (by omega)

theorem isPlain_of_mem_encodeChars (h : ∀ c ∈ cs, IsPlainChar c) (hb : b ∈ encodeChars cs) :
    isPlain b = true := by
  obtain ⟨c, hc, hb⟩ := List.mem_flatMap.mp hb
  exact isPlain_of_mem_utf8EncodeChar (h c hc) hb

/-! ## Escapes -/

/-- The bytes that spell a character behind a backslash. -/
inductive Escapes : Bytes → Char → Prop
  | named {b : UInt8} {c : Char} (hname : namedEscape? b = some c) (hletter : b ≠ 0x75) :
      Escapes [b] c
  | numbered {digits : Bytes} {ds : List Nat} {n : Nat} (hlength : digits.length = 4)
      (hdigits : digits.mapM hexDigit? = some ds)
      (hvalue : ds.foldl (fun n d => n * 16 + d) 0 = n) (hlt : n < 0xD800) :
      Escapes (0x75 :: digits) (.ofNat n)

theorem reads_fourDigits (hlength : digits.length = 4) (hdigits : digits.mapM hexDigit? = some ds) :
    Reads fourDigits (digits ++ rest) (ds.foldl (fun n d => n * 16 + d) 0) rest := by
  have htake : (digits ++ rest).take 4 = digits := by rw [← hlength, List.take_left]
  have hdrop : (digits ++ rest).drop digits.length = rest := List.drop_left
  refine reads_get_bind fun place => ?_
  have hpass := reads_pass digits.length (digits ++ rest)
  rw [hdrop] at hpass
  simp only [htake]
  refine hpass.bind ?_
  rw [if_neg (by omega), hdigits]
  exact reads_pure _ rest

theorem reads_numberedEscape (hlength : digits.length = 4)
    (hdigits : digits.mapM hexDigit? = some ds)
    (hvalue : ds.foldl (fun n d => n * 16 + d) 0 = n) (hlt : n < 0xD800) :
    Reads numberedEscape (digits ++ rest) (.ofNat n) rest := by
  refine (reads_fourDigits hlength hdigits).bind ?_
  rw [hvalue, if_neg (by omega), if_pos (.inl hlt)]
  exact reads_pure _ rest

/-- An escape is a letter or a number. -/
theorem at_escape (place : Place) (b : UInt8) (rest : Bytes) : escape.at ⟨place, b :: rest⟩ =
    Reader.at (if b = 0x75 then numberedEscape >>= fun c => pure (String.utf8EncodeChar c)
      else match namedEscape? b with
        | some c => pure (String.utf8EncodeChar c)
        | none => fail .invalidEscape) ⟨place.after b, rest⟩ :=
  rfl

theorem Escapes.reads (h : Escapes w c) (rest : Bytes) :
    Reads escape (w ++ rest) (String.utf8EncodeChar c) rest := by
  intro place
  cases h with
  | @named b _ hname hletter =>
      rw [List.singleton_append, at_escape, if_neg hletter, hname]
      exact reads_pure _ rest _
  | @numbered _ _ n hlength hdigits hvalue hlt =>
      rw [List.cons_append, at_escape, if_pos rfl]
      have hnumber : Reads numberedEscape (_ ++ rest) (.ofNat n) rest :=
        reads_numberedEscape hlength hdigits hvalue hlt
      exact hnumber.bind (reads_pure (String.utf8EncodeChar (.ofNat n)) rest) _

/-- The digits by which a control character is written. -/
def controlDigits (n : Nat) : Bytes :=
  encodeChars (['0', '0'] ++ Nat.toDigits 16 (n / 16) ++ Nat.toDigits 16 (n % 16))

theorem mapM_hexDigit?_controlDigits : ∀ n < 0x20, (controlDigits n).length = 4 ∧
    (controlDigits n).mapM hexDigit? = some [0, 0, n / 16, n % 16] := by
  decide

/-- A character that is not plain is escaped. -/
theorem escapes_jsonChar (h : ¬ IsPlainChar c) :
    ∃ w, encodeChars (jsonChar c) = 0x5C :: w ∧ Escapes w c := by
  have hnamed : ∀ letter : Char, ∀ b, String.utf8EncodeChar letter = [b] →
      namedEscape? b = some c → b ≠ 0x75 →
      ∃ w, encodeChars ['\\', letter] = 0x5C :: w ∧ Escapes w c := by
    intro letter b hletter hname hne
    refine ⟨[b], ?_, .named hname hne⟩
    rw [encodeChars_cons, encodeChars_cons, hletter]
    rfl
  unfold jsonChar
  -- Seven characters have letters of their own, and what is left of the controls is numbered.
  split_ifs with hquote hbackslash h8 hc hn hr ht hcontrol
  · exact hnamed '"' 0x22 rfl (hquote ▸ rfl) (by decide)
  · exact hnamed '\\' 0x5C rfl (hbackslash ▸ rfl) (by decide)
  · exact hnamed 'b' 0x62 rfl (h8 ▸ rfl) (by decide)
  · exact hnamed 'f' 0x66 rfl (hc ▸ rfl) (by decide)
  · exact hnamed 'n' 0x6E rfl (hn ▸ rfl) (by decide)
  · exact hnamed 'r' 0x72 rfl (hr ▸ rfl) (by decide)
  · exact hnamed 't' 0x74 rfl (ht ▸ rfl) (by decide)
  · obtain ⟨hlength, hdigits⟩ := mapM_hexDigit?_controlDigits c.toNat hcontrol
    have hescape : Escapes (0x75 :: controlDigits c.toNat) (.ofNat c.toNat) :=
      .numbered hlength hdigits (by simp only [List.foldl_cons, List.foldl_nil]; omega) (by omega)
    rw [Char.ofNat_toNat] at hescape
    exact ⟨_, rfl, hescape⟩
  · exact absurd ⟨hquote, hbackslash, by omega⟩ h

/-! ## Strings -/

/-- A string is read back stretch by stretch. -/
theorem reads_textWithin {bound : Nat} (hbound : cs.length < bound) (rest : Bytes) :
    Reads (textWithin bound) (encodeChars (cs.flatMap jsonChar) ++ 0x22 :: rest)
      (encodeChars cs) rest := by
  induction bound generalizing cs with
  | zero => exact absurd hbound (Nat.not_lt_zero _)
  | succ bound ih =>
      -- The plain characters in front are taken at once, and then comes the closing quote or an
      -- escape.
      have hsplit : cs.takeWhile (IsPlainChar ·) ++ cs.dropWhile (IsPlainChar ·) = cs :=
        List.takeWhile_append_dropWhile
      have hplain : ∀ c ∈ cs.takeWhile (IsPlainChar ·), IsPlainChar c := fun c hc =>
        of_decide_eq_true (List.all_eq_true.mp List.all_takeWhile c hc)
      have hnext := List.head?_dropWhile_not (IsPlainChar ·) cs
      generalize cs.takeWhile (IsPlainChar ·) = plain at hsplit hplain
      generalize cs.dropWhile (IsPlainChar ·) = others at hsplit hnext
      subst hsplit
      rw [List.flatMap_append, flatMap_jsonChar_of_isPlainChar hplain, encodeChars_append,
        encodeChars_append, List.append_assoc, textWithin]
      have hstretch {byte : UInt8} {more : Bytes} (hbyte : isPlain byte = false) :
          Reads (passWhile isPlain) (encodeChars plain ++ byte :: more) (encodeChars plain)
            (byte :: more) :=
        reads_passWhile_append (fun b => isPlain_of_mem_encodeChars hplain) hbyte
      cases others with
      | nil =>
          refine (hstretch rfl).bind ((reads_peek? _).bind ((reads_pass 1 _).bind ?_))
          rw [show encodeChars [] = [] from rfl, List.append_nil]
          exact reads_pure _ rest
      | cons c others =>
          obtain ⟨w, hw, hescapes⟩ := escapes_jsonChar (c := c) (by simpa using hnext)
          have hshort : others.length < bound := by
            rw [List.length_append, List.length_cons] at hbound
            omega
          rw [List.flatMap_cons, encodeChars_append, hw, List.append_assoc, List.cons_append]
          refine (hstretch rfl).bind ((reads_peek? _).bind ((reads_pass 1 _).bind ?_))
          refine (hescapes.reads _).bind ((ih hshort).bind ?_)
          rw [encodeChars_cons, ← List.append_assoc]
          exact reads_pure _ rest

theorem length_le_length_flatMap_jsonChar (cs : List Char) :
    cs.length ≤ (cs.flatMap jsonChar).length := by
  induction cs with
  | nil => exact Nat.zero_le _
  | cons c cs ih =>
      have hpos : 0 < (jsonChar c).length := by
        unfold jsonChar
        split_ifs <;> simp
      rw [List.flatMap_cons, List.length_append, List.length_cons]
      omega

theorem reads_text (s : String) (rest : Bytes) :
    Reads text (encodeChars (s.toList.flatMap jsonChar) ++ 0x22 :: rest) s rest := by
  refine reads_get_bind fun place => ?_
  have hbytes := Utf8.length_le_length_encodeChars (s.toList.flatMap jsonChar)
  have hchars := length_le_length_flatMap_jsonChar s.toList
  refine (reads_textWithin ?_ rest).bind ?_
  · rw [List.length_append]
    omega
  · have hshown := Utf8.lossy_encode s
    rw [Utf8.encode] at hshown
    rw [hshown]
    exact reads_pure s rest

theorem encode_jsonString (s : String) : Utf8.encode (jsonString s) =
    0x22 :: (encodeChars (s.toList.flatMap jsonChar) ++ [0x22]) := by
  rw [Utf8.encode, jsonString, String.toList_ofList, encodeChars_append, encodeChars_append]
  rfl

/-- A text written as a JSON string is read back. -/
theorem reads_string (wanted s : String) (rest : Bytes) :
    Reads (string wanted) (Utf8.encode (jsonString s) ++ rest) s rest := by
  rw [encode_jsonString, List.cons_append, List.append_assoc]
  refine Reads.placed ((reads_peekToken .endInValue rfl).bind ?_)
  rw [if_pos rfl]
  exact (reads_pass 1 _).bind (reads_text s rest)

end Confinement.Json
