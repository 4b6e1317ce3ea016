import Confinement.Text.Utf8

/-!
# UTF-8 read back

`Utf8.decode?` and `Utf8.encode` are inverse to each other: a byte string
spells a text if and only if it is the encoding of that text
(`Utf8.decode?_eq_some_iff`).  Texts come in the order of their bytes
(`Utf8.encode_lt_encode`).

The machine that reads pieces and the arithmetic of `String.utf8EncodeChar`
meet in `Utf8.Spelling`, the table of well-formed byte sequences: the machine
reads a character off a byte and some more (`Utf8.Reads`) exactly as the table
has it, and the table has exactly the encodings of characters.
-/

namespace Confinement.Utf8

variable {b x y z : UInt8} {c d : Char} {p q : Partial} {v n k : Nat} {w bytes rest seen : Bytes}
  {cs : List Char} {lo hi : UInt8} {s : String}

/-! ## Numbers -/

theorem toNat_and_mask (b m : UInt8) (d k : Nat) (hd : 1 <<< k = d) (hm : m.toNat = d - 1) :
    (b &&& m).toNat = b.toNat % d := by
  rw [UInt8.toNat_and, hm, ← hd, Nat.one_shiftLeft]
  exact Nat.and_two_pow_sub_one_eq_mod _ _

theorem toNat_val_ofNat (h : v.isValidChar) : (Char.ofNat v).val.toNat = v := by
  rw [Char.ofNat, dif_pos h]
  rfl

theorem eq_ofNat_iff : b = UInt8.ofNat n ↔ b.toNat = n % 256 := by
  rw [← UInt8.toNat_inj, UInt8.toNat_ofNat']

/-! ## Well-formed sequences -/

/-- A byte past the first of a character. -/
def Trails (b : UInt8) : Prop := 0x80 ≤ b.toNat ∧ b.toNat ≤ 0xBF

/-- The bytes that spell a character, the first one apart, and its value. -/
inductive Spelling : UInt8 → Bytes → Nat → Prop
  | one {b : UInt8} {v : Nat} (hb : b.toNat < 0x80) (hv : b.toNat = v) : Spelling b [] v
  | two {b x : UInt8} {v : Nat} (hb : 0xC2 ≤ b.toNat ∧ b.toNat < 0xE0) (hx : Trails x)
      (hv : b.toNat % 32 * 64 + x.toNat % 64 = v) : Spelling b [x] v
  | three {b x y : UInt8} {v : Nat} (hb : 0xE0 ≤ b.toNat ∧ b.toNat < 0xF0) (hx : Trails x)
      (hlow : b.toNat = 0xE0 → 0xA0 ≤ x.toNat) (hhigh : b.toNat = 0xED → x.toNat ≤ 0x9F)
      (hy : Trails y) (hv : (b.toNat % 16 * 64 + x.toNat % 64) * 64 + y.toNat % 64 = v) :
      Spelling b [x, y] v
  | four {b x y z : UInt8} {v : Nat} (hb : 0xF0 ≤ b.toNat ∧ b.toNat ≤ 0xF4) (hx : Trails x)
      (hlow : b.toNat = 0xF0 → 0x90 ≤ x.toNat) (hhigh : b.toNat = 0xF4 → x.toNat ≤ 0x8F)
      (hy : Trails y) (hz : Trails z)
      (hv : ((b.toNat % 8 * 64 + x.toNat % 64) * 64 + y.toNat % 64) * 64 + z.toNat % 64 = v) :
      Spelling b [x, y, z] v

theorem Spelling.isValidChar (h : Spelling b w v) : v.isValidChar := by
  cases h <;> simp only [Nat.isValidChar, Trails] at * <;> omega

theorem Spelling.utf8EncodeChar_eq (h : Spelling b w v) :
    String.utf8EncodeChar (.ofNat v) = b :: w := by
  simp only [String.utf8EncodeChar, toNat_val_ofNat h.isValidChar]
  symm
  cases h with
  | one hb hv =>
    rw [if_pos (by omega)]
    simp only [List.cons.injEq, eq_ofNat_iff, and_true]
    omega
  | two hb hx hv =>
    unfold Trails at hx
    rw [if_neg (by omega), if_pos (by omega)]
    simp only [List.cons.injEq, eq_ofNat_iff, and_true]
    omega
  | three hb hx hlow hhigh hy hv =>
    unfold Trails at hx hy
    rw [if_neg (by omega), if_neg (by omega), if_pos (by omega)]
    simp only [List.cons.injEq, eq_ofNat_iff, and_true]
    omega
  | four hb hx hlow hhigh hy hz hv =>
    unfold Trails at hx hy hz
    rw [if_neg (by omega), if_neg (by omega), if_neg (by omega)]
    simp only [List.cons.injEq, eq_ofNat_iff, and_true]
    omega

theorem spelling_of_utf8EncodeChar (h : String.utf8EncodeChar c = b :: w) :
    Spelling b w c.toNat := by
  have hvalid : c.val.toNat.isValidChar := c.valid
  simp only [String.utf8EncodeChar, Char.toNat_val, Nat.isValidChar] at h hvalid
  generalize c.toNat = v at h hvalid
  have hparts : ∀ {n : Nat} {t : Bytes}, UInt8.ofNat n :: t = b :: w →
      b.toNat = n % 256 ∧ w = t := by
    intro n t hcons
    obtain ⟨hb, hw⟩ := List.cons.inj hcons
    exact ⟨eq_ofNat_iff.mp hb.symm, hw.symm⟩
  split at h
  · obtain ⟨hb, rfl⟩ := hparts h
    exact .one (by omega) (by omega)
  split at h
  · obtain ⟨hb, rfl⟩ := hparts h
    refine .two (by omega) ?_ ?_
    all_goals simp only [Trails, UInt8.toNat_ofNat']; omega
  split at h
  · obtain ⟨hb, rfl⟩ := hparts h
    refine .three (by omega) ?_ ?_ ?_ ?_ ?_
    all_goals simp only [Trails, UInt8.toNat_ofNat']; omega
  · obtain ⟨hb, rfl⟩ := hparts h
    refine .four (by omega) ?_ ?_ ?_ ?_ ?_ ?_
    all_goals simp only [Trails, UInt8.toNat_ofNat']; omega

/-! ## First bytes -/

theorem opening_one (hb : b.toNat < 0x80) : opening b = .whole (.ofNat b.toNat) :=
  if_pos (UInt8.lt_iff_toNat_lt.mpr hb)

theorem opening_two (hb : 0xC2 ≤ b.toNat ∧ b.toNat < 0xE0) :
    opening b = .started ⟨[b], b.toNat % 32, 1, 0x80, 0xBF⟩ := by
  simp only [opening, UInt8.lt_iff_toNat_lt, UInt8.reduceToNat,
    toNat_and_mask b 0x1F 32 5 rfl rfl]
  rw [if_neg (by omega), if_neg (by omega), if_pos hb.2]

theorem opening_three (hb : 0xE0 ≤ b.toNat ∧ b.toNat < 0xF0) :
    opening b = .started ⟨[b], b.toNat % 16, 2, if b.toNat = 0xE0 then 0xA0 else 0x80,
      if b.toNat = 0xED then 0x9F else 0xBF⟩ := by
  simp only [opening, UInt8.lt_iff_toNat_lt, ← UInt8.toNat_inj, UInt8.reduceToNat,
    toNat_and_mask b 0xF 16 4 rfl rfl]
  rw [if_neg (by omega), if_neg (by omega), if_neg (by omega)]
  by_cases hlow : b.toNat = 0xE0
  · simp [hlow]
  by_cases hhigh : b.toNat = 0xED
  · simp [hhigh]
  rw [if_neg hlow, if_neg hhigh, if_neg hlow, if_neg hhigh, if_pos hb.2]

theorem opening_four (hb : 0xF0 ≤ b.toNat ∧ b.toNat ≤ 0xF4) :
    opening b = .started ⟨[b], b.toNat % 8, 3, if b.toNat = 0xF0 then 0x90 else 0x80,
      if b.toNat = 0xF4 then 0x8F else 0xBF⟩ := by
  simp only [opening, UInt8.lt_iff_toNat_lt, ← UInt8.toNat_inj, UInt8.reduceToNat,
    toNat_and_mask b 0x7 8 3 rfl rfl]
  rw [if_neg (by omega), if_neg (by omega), if_neg (by omega), if_neg (by omega),
    if_neg (by omega), if_neg (by omega)]
  -- The first and the last of these bytes bound the second one further.
  by_cases hlow : b.toNat = 0xF0
  · simp [hlow]
  by_cases hhigh : b.toNat = 0xF4
  · simp [hhigh]
  rw [if_neg hlow, if_neg hhigh, if_neg hlow, if_neg hhigh, if_pos (by omega)]

theorem opening_broken (hb : 0x80 ≤ b.toNat ∧ b.toNat < 0xC2 ∨ 0xF4 < b.toNat) :
    opening b = .broken := by
  simp only [opening, UInt8.lt_iff_toNat_lt, ← UInt8.toNat_inj, UInt8.reduceToNat]
  rw [if_neg (by omega)]
  rcases hb with hb | hb
  · rw [if_pos hb.2]
  · iterate 8 rw [if_neg (by omega)]

/-- The range of a second byte is that of all later ones, but for a bound that
some first bytes raise or lower. -/
theorem toNat_ite_range {P Q : Prop} [Decidable P] [Decidable Q] (hlo : 0x80 ≤ lo.toNat)
    (hhi : hi.toNat ≤ 0xBF) :
    (if P then lo else 0x80).toNat ≤ x.toNat ∧ x.toNat ≤ (if Q then hi else 0xBF).toNat ↔
      Trails x ∧ (P → lo.toNat ≤ x.toNat) ∧ (Q → x.toNat ≤ hi.toNat) := by
  unfold Trails
  by_cases hP : P <;> by_cases hQ : Q <;> simp [hP, hQ] <;> omega

/-! ## Characters under way -/

theorem take?_eq_inl : p.take? b = some (.inl c) ↔
    p.low.toNat ≤ b.toNat ∧ b.toNat ≤ p.high.toNat ∧ p.owed ≤ 1 ∧
      Char.ofNat (p.value * 64 + b.toNat % 64) = c := by
  simp only [Partial.take?, UInt8.le_iff_toNat_le,
    toNat_and_mask b 0x3F 64 6 rfl rfl]
  by_cases hrange : p.low.toNat ≤ b.toNat ∧ b.toNat ≤ p.high.toNat <;>
    by_cases howed : p.owed ≤ 1 <;> simp [hrange, howed]
  all_goals omega

theorem take?_eq_inr : p.take? b = some (.inr q) ↔
    p.low.toNat ≤ b.toNat ∧ b.toNat ≤ p.high.toNat ∧ 1 < p.owed ∧
      ⟨p.seen ++ [b], p.value * 64 + b.toNat % 64, p.owed - 1, 0x80, 0xBF⟩ = q := by
  simp only [Partial.take?, UInt8.le_iff_toNat_le,
    toNat_and_mask b 0x3F 64 6 rfl rfl]
  by_cases hrange : p.low.toNat ≤ b.toNat ∧ b.toNat ≤ p.high.toNat <;>
    by_cases howed : p.owed ≤ 1 <;> simp [hrange, howed]
  all_goals omega

/-- The bytes that finish a character under way. -/
inductive Partial.Finishes : Partial → Bytes → Char → Prop
  | last {p : Partial} {b : UInt8} {c : Char} (h : p.take? b = some (.inl c)) : p.Finishes [b] c
  | step {p q : Partial} {b : UInt8} {w : Bytes} {c : Char} (h : p.take? b = some (.inr q))
      (hq : q.Finishes w c) : p.Finishes (b :: w) c

theorem finishes_one : (⟨seen, k, 1, lo, hi⟩ : Partial).Finishes w c ↔
    ∃ b, w = [b] ∧ (lo.toNat ≤ b.toNat ∧ b.toNat ≤ hi.toNat) ∧
      Char.ofNat (k * 64 + b.toNat % 64) = c := by
  constructor
  · rintro (hlast | ⟨hstep, -⟩)
    · obtain ⟨hlow, hhigh, -, hc⟩ := take?_eq_inl.mp hlast
      exact ⟨_, rfl, ⟨hlow, hhigh⟩, hc⟩
    · exact absurd (take?_eq_inr.mp hstep).2.2.1 (Nat.lt_irrefl 1)
  · rintro ⟨b, rfl, ⟨hlow, hhigh⟩, hc⟩
    exact .last (take?_eq_inl.mpr ⟨hlow, hhigh, Nat.le_refl 1, hc⟩)

theorem finishes_add_two : (⟨seen, k, n + 2, lo, hi⟩ : Partial).Finishes w c ↔
    ∃ b w', w = b :: w' ∧ (lo.toNat ≤ b.toNat ∧ b.toNat ≤ hi.toNat) ∧
      (⟨seen ++ [b], k * 64 + b.toNat % 64, n + 1, 0x80, 0xBF⟩ : Partial).Finishes w' c := by
  constructor
  · rintro (hlast | ⟨hstep, hrest⟩)
    · exact absurd (take?_eq_inl.mp hlast).2.2.1 (by simp)
    · obtain ⟨hlow, hhigh, -, rfl⟩ := take?_eq_inr.mp hstep
      exact ⟨_, _, rfl, ⟨hlow, hhigh⟩, hrest⟩
  · rintro ⟨b, w', rfl, ⟨hlow, hhigh⟩, hrest⟩
    exact .step (take?_eq_inr.mpr ⟨hlow, hhigh, by simp, rfl⟩) hrest

/-- A byte that begins a character, and the bytes that finish it. -/
def Reads (b : UInt8) (w : Bytes) (c : Char) : Prop :=
  opening b = .whole c ∧ w = [] ∨ ∃ p, opening b = .started p ∧ p.Finishes w c

theorem reads_of_whole (h : opening b = .whole d) : Reads b w c ↔ w = [] ∧ d = c := by
  simp only [Reads, h, Opening.whole.injEq, reduceCtorEq, false_and, exists_false, or_false]
  exact and_comm

theorem reads_of_started (h : opening b = .started p) : Reads b w c ↔ p.Finishes w c := by
  simp only [Reads, h, Opening.started.injEq, reduceCtorEq, false_and, false_or,
    exists_eq_left']

theorem not_reads_of_broken (h : opening b = .broken) : ¬ Reads b w c := by
  simp only [Reads, h, reduceCtorEq, false_and, exists_false, or_self, not_false_iff]

/-- What the machine reads as a character is what spells it. -/
theorem reads_iff_spelling : Reads b w c ↔ ∃ v, Spelling b w v ∧ .ofNat v = c := by
  constructor
  · intro h
    -- The first byte says how many more there are.  The last kind begins nothing.
    obtain hb | hb | hb | hb | hb : b.toNat < 0x80 ∨ (0xC2 ≤ b.toNat ∧ b.toNat < 0xE0) ∨
        (0xE0 ≤ b.toNat ∧ b.toNat < 0xF0) ∨ (0xF0 ≤ b.toNat ∧ b.toNat ≤ 0xF4) ∨
        (0x80 ≤ b.toNat ∧ b.toNat < 0xC2 ∨ 0xF4 < b.toNat) := by omega
    · obtain ⟨rfl, hc⟩ := (reads_of_whole (opening_one hb)).mp h
      exact ⟨_, .one hb rfl, hc⟩
    · rw [reads_of_started (opening_two hb)] at h
      obtain ⟨x, rfl, hx, hc⟩ := finishes_one.mp h
      exact ⟨_, .two hb hx rfl, hc⟩
    · rw [reads_of_started (opening_three hb)] at h
      obtain ⟨x, _, rfl, hx, h⟩ := finishes_add_two.mp h
      obtain ⟨y, rfl, hy, hc⟩ := finishes_one.mp h
      obtain ⟨hx, hlow, hhigh⟩ := (toNat_ite_range (by decide) (by decide)).mp hx
      exact ⟨_, .three hb hx hlow hhigh hy rfl, hc⟩
    · rw [reads_of_started (opening_four hb)] at h
      obtain ⟨x, _, rfl, hx, h⟩ := finishes_add_two.mp h
      obtain ⟨y, _, rfl, hy, h⟩ := finishes_add_two.mp h
      obtain ⟨z, rfl, hz, hc⟩ := finishes_one.mp h
      obtain ⟨hx, hlow, hhigh⟩ := (toNat_ite_range (by decide) (by decide)).mp hx
      exact ⟨_, .four hb hx hlow hhigh hy hz rfl, hc⟩
    · exact absurd h (not_reads_of_broken (opening_broken hb))
  · rintro ⟨v, hv, rfl⟩
    cases hv with
    | one hb hv => exact (reads_of_whole (opening_one hb)).mpr ⟨rfl, by rw [hv]⟩
    | two hb hx hv =>
      rw [reads_of_started (opening_two hb), ← hv]
      exact finishes_one.mpr ⟨_, rfl, hx, rfl⟩
    | three hb hx hlow hhigh hy hv =>
      rw [reads_of_started (opening_three hb), ← hv]
      refine finishes_add_two.mpr ⟨_, _, rfl, ?_, finishes_one.mpr ⟨_, rfl, hy, rfl⟩⟩
      exact (toNat_ite_range (by decide) (by decide)).mpr ⟨hx, hlow, hhigh⟩
    | four hb hx hlow hhigh hy hz hv =>
      rw [reads_of_started (opening_four hb), ← hv]
      refine finishes_add_two.mpr ⟨_, _, rfl, ?_,
        finishes_add_two.mpr ⟨_, _, rfl, hy, finishes_one.mpr ⟨_, rfl, hz, rfl⟩⟩⟩
      exact (toNat_ite_range (by decide) (by decide)).mpr ⟨hx, hlow, hhigh⟩

theorem reads_iff_utf8EncodeChar : Reads b w c ↔ String.utf8EncodeChar c = b :: w := by
  rw [reads_iff_spelling]
  constructor
  · rintro ⟨v, hv, rfl⟩
    exact hv.utf8EncodeChar_eq
  · intro h
    exact ⟨_, spelling_of_utf8EncodeChar h, Char.ofNat_toNat c⟩

/-! ## Texts -/

theorem piecesFrom_of_finishes (h : p.Finishes w c) (rest : Bytes) :
    piecesFrom (some p) (w ++ rest) = .char c :: piecesFrom none rest := by
  induction h with
  | last h => simp only [List.singleton_append, piecesFrom, h]
  | step h _ ih => simp only [List.cons_append, piecesFrom, h, ih]

theorem pieces_of_reads (h : Reads b w c) (rest : Bytes) :
    pieces (b :: (w ++ rest)) = .char c :: pieces rest := by
  obtain ⟨hwhole, rfl⟩ | ⟨p, hstarted, hfinishes⟩ := h
  · simp only [pieces, piecesFrom, hwhole, List.nil_append]
  · simp only [pieces, piecesFrom, hstarted, piecesFrom_of_finishes hfinishes]

theorem encodeChars_cons (c : Char) (cs : List Char) :
    encodeChars (c :: cs) = String.utf8EncodeChar c ++ encodeChars cs :=
  List.flatMap_cons

theorem encodeChars_append (cs ds : List Char) :
    encodeChars (cs ++ ds) = encodeChars cs ++ encodeChars ds :=
  List.flatMap_append

theorem encode_append (s t : String) : encode (s ++ t) = encode s ++ encode t := by
  rw [encode, String.toList_append, encodeChars_append]
  rfl

/-- Every character takes at least one byte. -/
theorem length_le_length_encodeChars (cs : List Char) : cs.length ≤ (encodeChars cs).length := by
  induction cs with
  | nil => exact Nat.le_refl 0
  | cons c cs ih =>
      have hpos := List.length_pos_iff.mpr (String.utf8EncodeChar_ne_nil (c := c))
      rw [encodeChars_cons, List.length_append, List.length_cons]
      omega

/-- A text is read back from its bytes. -/
theorem decodeChars?_encodeChars (cs : List Char) : decodeChars? (encodeChars cs) = some cs := by
  induction cs with
  | nil => rfl
  | cons c cs ih =>
      obtain ⟨b, w, hw⟩ := List.exists_cons_of_ne_nil (String.utf8EncodeChar_ne_nil (c := c))
      have hpieces := pieces_of_reads (reads_iff_utf8EncodeChar.mpr hw) (encodeChars cs)
      have hbytes : encodeChars (c :: cs) = b :: (w ++ encodeChars cs) := by
        rw [encodeChars, List.flatMap_cons, hw, List.cons_append, encodeChars]
      rw [decodeChars?] at ih
      rw [decodeChars?, hbytes, hpieces, List.mapM_cons, ih]
      rfl

theorem exists_finishes_of_mapM (h : (piecesFrom (some p) bytes).mapM Piece.char? = some cs) :
    ∃ w rest c cs', bytes = w ++ rest ∧ p.Finishes w c ∧ cs = c :: cs' ∧
      decodeChars? rest = some cs' := by
  induction bytes generalizing p with
  | nil => cases h
  | cons b bytes ih =>
      rw [piecesFrom] at h
      split at h
      · rename_i c htake
        simp only [List.mapM_cons, Piece.char?, Option.pure_def, Option.bind_eq_bind,
          Option.bind_some, Option.bind_eq_some_iff, Option.some.injEq] at h
        obtain ⟨cs', hrest, rfl⟩ := h
        exact ⟨[b], bytes, c, cs', rfl, .last htake, rfl, hrest⟩
      · rename_i q htake
        obtain ⟨w, rest, c, cs', rfl, hfinishes, rfl, hrest⟩ := ih h
        exact ⟨b :: w, rest, c, cs', rfl, .step htake hfinishes, rfl, hrest⟩
      · -- What was begun is a broken stretch, and that is no character.
        cases h

theorem exists_reads_of_decodeChars? (h : decodeChars? (b :: bytes) = some cs) :
    ∃ w rest c cs', bytes = w ++ rest ∧ Reads b w c ∧ cs = c :: cs' ∧
      decodeChars? rest = some cs' := by
  rw [decodeChars?, pieces, piecesFrom] at h
  -- The first byte is a character, begins one, or is refused.
  split at h
  · rename_i c hwhole
    simp only [List.mapM_cons, Piece.char?, Option.pure_def, Option.bind_eq_bind,
      Option.bind_some, Option.bind_eq_some_iff, Option.some.injEq] at h
    obtain ⟨cs', hrest, rfl⟩ := h
    exact ⟨[], bytes, c, cs', rfl, .inl ⟨hwhole, rfl⟩, rfl, hrest⟩
  · rename_i q hstarted
    obtain ⟨w, rest, c, cs', hbytes, hfinishes, hcs, hrest⟩ := exists_finishes_of_mapM h
    exact ⟨w, rest, c, cs', hbytes, .inr ⟨q, hstarted, hfinishes⟩, hcs, hrest⟩
  · cases h

/-- Bytes that are read as text are the bytes of that text. -/
theorem encodeChars_of_decodeChars? (h : decodeChars? bytes = some cs) :
    encodeChars cs = bytes := by
  induction cs generalizing bytes with
  | nil =>
      -- A text without characters is read from no bytes only, and one with a character begins with
      -- its spelling.
      match bytes with
      | [] => rfl
      | b :: bytes =>
        obtain ⟨w, rest, c, cs', -, -, hcs, -⟩ := exists_reads_of_decodeChars? h
        cases hcs
  | cons c cs ih =>
      match bytes with
      | [] => cases h
      | b :: bytes =>
        obtain ⟨w, rest, c', cs', rfl, hreads, hcs, hrest⟩ := exists_reads_of_decodeChars? h
        obtain ⟨rfl, rfl⟩ := List.cons.inj hcs
        rw [encodeChars, List.flatMap_cons, reads_iff_utf8EncodeChar.mp hreads,
          List.cons_append, ← encodeChars, ih hrest]

/-- A byte string spells a text just when it is the encoding of that text. -/
theorem decode?_eq_some_iff : decode? bytes = some s ↔ encode s = bytes := by
  rw [decode?, Option.map_eq_some_iff, encode]
  constructor
  · rintro ⟨cs, hcs, rfl⟩
    rw [String.toList_ofList]
    exact encodeChars_of_decodeChars? hcs
  · rintro rfl
    exact ⟨s.toList, decodeChars?_encodeChars _, String.ofList_toList⟩

theorem decode?_encode (s : String) : decode? (encode s) = some s := decode?_eq_some_iff.mpr rfl

/-- Where every piece is a character, the characters are shown. -/
theorem map_shown_of_mapM_char? {ps : List Piece} (h : ps.mapM Piece.char? = some cs) :
    ps.map Piece.shown = cs := by
  induction ps generalizing cs with
  | nil => exact Option.some.inj h
  | cons p ps ih =>
      simp only [List.mapM_cons, Option.pure_def, Option.bind_eq_bind, Option.bind_eq_some_iff,
        Option.some.injEq] at h
      obtain ⟨c, hc, cs', hcs', rfl⟩ := h
      cases p with
      | char d =>
          obtain rfl := Option.some.inj hc
          rw [List.map_cons, ih hcs']
          rfl
      | broken bytes => cases hc

/-- A text is shown as it is. -/
theorem lossy_encode (s : String) : lossy (encode s) = s := by
  have hchars : (pieces (encodeChars s.toList)).mapM Piece.char? = some s.toList :=
    decodeChars?_encodeChars s.toList
  rw [lossy, encode, map_shown_of_mapM_char? hchars, String.ofList_toList]

/-! ## Order -/

variable {b' : UInt8} {w' rest' : Bytes} {v' : Nat} {ds : List Char} {t : String}

/-- The bytes of a lesser character come first, whatever follows. -/
theorem Spelling.append_lt (h : Spelling b w v) (h' : Spelling b' w' v') (hlt : v < v') :
    b :: (w ++ rest) < b' :: (w' ++ rest') := by
  -- The first byte says how many there are; of as many bytes the first difference decides.
  cases h <;> cases h' <;>
    simp only [Trails, List.cons_lt_cons_iff, List.cons_append, List.nil_append,
      UInt8.lt_iff_toNat_lt, ← UInt8.toNat_inj] at * <;> grind

theorem encodeChars_lt (h : cs < ds) : encodeChars cs < encodeChars ds := by
  induction cs generalizing ds with
  | nil =>
      cases ds with
      | nil => exact absurd h (List.lt_irrefl [])
      | cons d ds =>
          obtain ⟨b, w, hw⟩ := List.exists_cons_of_ne_nil (String.utf8EncodeChar_ne_nil (c := d))
          rw [encodeChars, encodeChars, List.flatMap_cons, hw]
          exact List.nil_lt_cons _ _
  | cons c cs ih =>
      cases ds with
      | nil => exact absurd h (List.not_lt_nil _)
      | cons d ds =>
          rw [encodeChars, encodeChars, List.flatMap_cons, List.flatMap_cons]
          -- The first characters that differ decide, and of different characters the bytes decide
          -- at once.
          rcases List.cons_lt_cons_iff.mp h with hlt | ⟨rfl, hrest⟩
          · obtain ⟨b, w, hw⟩ := List.exists_cons_of_ne_nil (String.utf8EncodeChar_ne_nil (c := c))
            obtain ⟨b', w', hw'⟩ :=
              List.exists_cons_of_ne_nil (String.utf8EncodeChar_ne_nil (c := d))
            rw [hw, hw']
            exact (spelling_of_utf8EncodeChar hw).append_lt (spelling_of_utf8EncodeChar hw') hlt
          · exact List.append_left_lt (ih hrest)

/-- Texts are ordered as their bytes are. -/
theorem encode_lt_encode (h : s < t) : encode s < encode t :=
  encodeChars_lt (String.lt_iff.mp h)

end Confinement.Utf8
