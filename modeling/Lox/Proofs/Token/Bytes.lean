import Lox.Proofs.Token.Division
import Lox.Token.ByteScanner

/-!
# The bytes of a text

A character of ASCII is its own byte.  All bytes of another character lie beyond ASCII, so
none of them is taken for a quote, a line break, a digit or a letter.  Therefore a run of
bytes that goes on with some kind of character ends where the run of characters ends: in
front of a whole character.
-/

namespace Lox.ByteScanner

/-- The bytes of a text, each of them as the character with its number. -/
def codes (text : List Char) : List Char :=
  (text.flatMap String.utf8EncodeChar).map Char.ofUInt8

/-- The character has a number below 128, and so it is its own byte. -/
def IsAscii (c : Char) : Prop := c.toNat < 128

instance (c : Char) : Decidable (IsAscii c) := inferInstanceAs (Decidable (_ < _))

/-! ### Bytes of characters -/

@[simp]
theorem codes_nil : codes [] = [] := rfl

theorem codes_append (first second : List Char) :
    codes (first ++ second) = codes first ++ codes second := by
  simp [codes]

theorem codes_cons (c : Char) (rest : List Char) : codes (c :: rest) = codes [c] ++ codes rest :=
  codes_append [c] rest

theorem toNat_ofUInt8 (b : UInt8) : (Char.ofUInt8 b).toNat = b.toNat := UInt8.toNat_toUInt32 b

theorem codes_ascii {c : Char} (h : IsAscii c) : codes [c] = [c] := by
  have hone : c.utf8Size = 1 := Char.utf8Size_eq_one_iff.mpr (Nat.le_of_lt_succ h)
  have hsame : Char.ofUInt8 c.val.toUInt8 = c := by
    apply Char.toNat_inj.mp
    rw [toNat_ofUInt8]
    exact Nat.mod_eq_of_lt (Nat.lt_trans h (by decide))
  rw [codes, List.flatMap_singleton, String.utf8EncodeChar_eq_singleton hone, List.map_singleton,
    hsame]

theorem length_codes_cons {c : Char} (h : IsAscii c) (rest : List Char) :
    (codes (c :: rest)).length = 1 + (codes rest).length := by
  rw [codes_cons, codes_ascii h, List.length_append, List.length_singleton]

/-- All bytes of a character beyond ASCII lie beyond ASCII. -/
theorem not_isAscii_of_mem_codes {c : Char} (h : ¬ IsAscii c) : ∀ d ∈ codes [c], ¬ IsAscii d := by
  have hbytes : ∀ b ∈ String.utf8EncodeChar c, 128 ≤ b.toNat := by
    have hgt : ¬ c.val.toNat ≤ 127 := fun hle => h (Nat.lt_succ_of_le hle)
    unfold String.utf8EncodeChar
    simp only [hgt, if_false]
    split
    · simp
      omega
    split
    · simp
      omega
    · simp
      omega
  intro d hd
  simp only [codes, List.flatMap_singleton, List.mem_map] at hd
  obtain ⟨b, hb, rfl⟩ := hd
  rw [IsAscii, toNat_ofUInt8]
  exact Nat.not_lt.mpr (hbytes b hb)

theorem length_codes_singleton (c : Char) : (codes [c]).length = c.utf8Size := by
  simp [codes]

theorem length_le_codes (text : List Char) : text.length ≤ (codes text).length := by
  induction text with
  | nil => exact Nat.le_refl _
  | cons c rest ih =>
    have hpos := Char.utf8Size_pos c
    rw [codes_cons, List.length_append, length_codes_singleton, List.length_cons]
    omega

theorem codes_eq_nil_iff {text : List Char} : codes text = [] ↔ text = [] := by
  cases text with
  | nil => simp
  | cons c rest =>
    have hne := String.utf8EncodeChar_ne_nil (c := c)
    simp [codes, hne]

/-- Already the first byte of a character beyond ASCII lies beyond ASCII. -/
theorem exists_codes_eq_cons {c : Char} (h : ¬ IsAscii c) :
    ∃ b more, codes [c] = b :: more ∧ ¬ IsAscii b := by
  obtain ⟨b, more, hcodes⟩ :=
    List.exists_cons_of_ne_nil (mt codes_eq_nil_iff.mp (List.cons_ne_nil c []))
  exact ⟨b, more, hcodes, not_isAscii_of_mem_codes h b (hcodes ▸ List.mem_cons_self)⟩

theorem codes_of_ascii {text : List Char} (h : ∀ c ∈ text, IsAscii c) : codes text = text := by
  induction text with
  | nil => rfl
  | cons c rest ih =>
    rw [codes_cons, codes_ascii (h c List.mem_cons_self),
      ih fun d hd => h d (List.mem_cons_of_mem _ hd)]
    rfl

/-! ### Runs of bytes -/

/-- The characters beyond ASCII are all alike. -/
def Coarse (p : Char → Bool) : Prop := ∀ c d, ¬ IsAscii c → ¬ IsAscii d → p c = p d

/-- A run of bytes is the bytes of a run of characters. -/
theorem takeWhile_codes {p : Char → Bool} (hp : Coarse p) (text : List Char) :
    (codes text).takeWhile p = codes (text.takeWhile p) := by
  induction text with
  | nil => rfl
  | cons c rest ih =>
    rw [codes_cons]
    by_cases hc : IsAscii c
    · rw [codes_ascii hc, List.singleton_append, List.takeWhile_cons, List.takeWhile_cons, ih]
      cases p c with
      | true =>
        rw [if_pos rfl, if_pos rfl, codes_cons, codes_ascii hc]
        rfl
      | false => rfl
    · have hbytes : ∀ d ∈ codes [c], p d = p c :=
        fun d hd => hp d c (not_isAscii_of_mem_codes hc d hd) hc
      cases hpc : p c with
      | true =>
        rw [List.takeWhile_append_of_pos fun d hd => (hbytes d hd).trans hpc, ih,
          List.takeWhile_cons_of_pos hpc, ← codes_cons]
      | false =>
        rw [List.takeWhile_cons_of_neg (by simp [hpc])]
        apply Piece.takeWhile_of_not_startsWith?
        obtain ⟨d, more, hmore, hd⟩ := exists_codes_eq_cons hc
        simp [hmore, Piece.StartsWith?, hp d c hd hc, hpc]

def AsciiOnly (p : Char → Bool) : Prop := ∀ c, p c = true → IsAscii c

theorem AsciiOnly.eq_false {p : Char → Bool} (hp : AsciiOnly p) {c : Char} (h : ¬ IsAscii c) :
    p c = false := by
  cases hc : p c with
  | true => exact absurd (hp c hc) h
  | false => rfl

theorem AsciiOnly.coarse {p : Char → Bool} (hp : AsciiOnly p) : Coarse p :=
  fun _ _ hc hd => (hp.eq_false hc).trans (hp.eq_false hd).symm

theorem AsciiOnly.codes_takeWhile {p : Char → Bool} (hp : AsciiOnly p) (text : List Char) :
    codes (text.takeWhile p) = text.takeWhile p :=
  codes_of_ascii fun c hc => hp c (Piece.mem_takeWhile c hc)

theorem asciiOnly_isDigit : AsciiOnly Char.isDigit := by
  intro c hc
  have hle : c.val ≤ '9'.val := of_decide_eq_true (Bool.and_eq_true_iff.mp hc).2
  exact Nat.lt_of_le_of_lt hle (by decide)

theorem asciiOnly_continuesWord : AsciiOnly Piece.continuesWord := by
  intro c hc
  rcases Bool.or_eq_true_iff.mp hc with halphanum | hunderscore
  · rcases Bool.or_eq_true_iff.mp halphanum with hletter | hdigit
    · rcases Bool.or_eq_true_iff.mp hletter with hupper | hlower
      · exact Nat.lt_of_le_of_lt (of_decide_eq_true hupper).2 (by decide)
      · have hle : c.val ≤ 'z'.val := of_decide_eq_true (Bool.and_eq_true_iff.mp hlower).2
        exact Nat.lt_of_le_of_lt hle (by decide)
    · exact asciiOnly_isDigit c hdigit
  · rw [of_decide_eq_true hunderscore]
    decide

/-- All characters but one of ASCII. -/
theorem coarse_ne {a : Char} (ha : IsAscii a) : Coarse (· ≠ a) := by
  intro c d hc hd
  have hne : ∀ e, ¬ IsAscii e → e ≠ a := by
    rintro e he rfl
    exact he ha
  simp [hne c hc, hne d hd]

theorem count_codes {a : Char} (ha : IsAscii a) (text : List Char) :
    (codes text).count a = text.count a := by
  induction text with
  | nil => rfl
  | cons c rest ih =>
    rw [codes_cons, List.count_append, ih, List.count_cons, Nat.add_comm]
    congr 1
    by_cases hc : IsAscii c
    · simp [codes_ascii hc, List.count_cons]
    · have hne : c ≠ a := by
        rintro rfl
        exact hc ha
      have habsent : a ∉ codes [c] := fun hmem => not_isAscii_of_mem_codes hc a hmem ha
      simp [List.count_eq_zero.mpr habsent, hne]

theorem asciiOnly_eq {a : Char} (ha : IsAscii a) : AsciiOnly (· = a) := by
  intro c hc
  rwa [of_decide_eq_true hc]

theorem startsWith?_codes {p : Char → Bool} (hp : AsciiOnly p) (text : List Char) :
    Piece.StartsWith? p (codes text) = Piece.StartsWith? p text := by
  cases text with
  | nil => rfl
  | cons c rest =>
    rw [codes_cons]
    by_cases hc : IsAscii c
    · rw [codes_ascii hc]
      rfl
    · obtain ⟨d, more, hmore, hd⟩ := exists_codes_eq_cons hc
      rw [hmore]
      exact (hp.eq_false hd).trans (hp.eq_false hc).symm

theorem head?_codes {a : Char} (ha : IsAscii a) (text : List Char) :
    (codes text).head? = some a ↔ text.head? = some a := by
  rw [Piece.head?_eq_some_iff, Piece.head?_eq_some_iff, startsWith?_codes (asciiOnly_eq ha)]

/-- The null character behind the end is taken for nothing else. -/
theorem headD_codes {p : Char → Bool} (hp : AsciiOnly p) (hnull : p '\x00' = false)
    (text : List Char) : p ((codes text).headD '\x00') = Piece.StartsWith? p text := by
  rw [← startsWith?_codes hp]
  cases codes text with
  | nil => exact hnull
  | cons c rest => rfl

/-! ### Where an index stands -/

theorem toList_data (source : String) :
    source.toByteArray.data.toList = source.toList.flatMap String.utf8EncodeChar := by
  rw [← String.utf8Encode_toList, List.utf8Encode, List.toList_data_toByteArray]

theorem size_eq (source : String) : size source = (codes source.toList).length := by
  rw [size, ← String.size_toByteArray, codes, List.length_map, ← toList_data, Array.length_toList]
  rfl

theorem length_codes (text : List Char) : size (String.ofList text) = (codes text).length := by
  rw [size_eq, String.toList_ofList]

/-- The bytes from an index on. -/
structure Ahead (source : String) (ahead : List Char) (index : Nat) : Prop where
  le_size : index ≤ size source
  eq : (codes source.toList).drop index = ahead

namespace Ahead

variable {source : String} {ahead : List Char} {index : Nat} {c : Char}

theorem lt_size (h : Ahead source (c :: ahead) index) : index < size source := by
  have hlength := congrArg List.length h.eq
  simp only [List.length_drop, List.length_cons, ← size_eq] at hlength
  omega

theorem size_le (h : Ahead source [] index) : size source ≤ index := by
  rw [size_eq]
  exact List.drop_eq_nil_iff.mp h.eq

theorem next (h : Ahead source (c :: ahead) index) : Ahead source ahead (index + 1) := by
  refine ⟨h.lt_size, ?_⟩
  rw [← List.drop_drop, h.eq]
  rfl

theorem drop (h : Ahead source ahead index) {n : Nat} (hn : n ≤ ahead.length) :
    Ahead source (ahead.drop n) (index + n) := by
  have hlength := congrArg List.length h.eq
  have hle := h.le_size
  simp only [List.length_drop, ← size_eq] at hlength
  refine ⟨by omega, ?_⟩
  rw [← List.drop_drop, h.eq]

theorem byte (h : Ahead source (c :: ahead) index) : byte source index = .ok c := by
  have hlt : (⟨index⟩ : String.Pos.Raw) < source.rawEndPos := h.lt_size
  have hget : (codes source.toList)[index]? = some c := by
    rw [← List.head?_drop, h.eq]
    rfl
  rw [codes, ← toList_data, List.getElem?_map, Array.getElem?_toList] at hget
  obtain ⟨b, hb, rfl⟩ := Option.map_eq_some_iff.mp hget
  obtain ⟨hbound, rfl⟩ := Array.getElem?_eq_some_iff.mp hb
  unfold ByteScanner.byte
  rw [dif_pos hlt]
  rfl

theorem peek (h : Ahead source ahead index) :
    peek source index = .ok (ahead.headD '\x00') := by
  unfold ByteScanner.peek
  cases ahead with
  | nil => exact if_pos h.size_le
  | cons c ahead =>
    rw [if_neg (Nat.not_le.mpr h.lt_size), h.byte]
    rfl

theorem bytes (h : Ahead source ahead index) {n : Nat} (hn : n ≤ ahead.length) :
    bytes source index (index + n) = .ok (ahead.take n) := by
  unfold ByteScanner.bytes
  rw [if_pos ⟨Nat.le_add_right _ _, (h.drop hn).le_size⟩, ByteArray.data_extract,
    Array.toList_extract, toList_data, List.extract_eq_take_drop, List.map_take, List.map_drop,
    Nat.add_sub_cancel_left]
  exact congrArg (fun bytes => Except.ok (bytes.take n)) h.eq

end Ahead

/-- The index stands between two parts of the source. -/
structure At (source : String) (before rest : List Char) (index : Nat) : Prop where
  split : source.toList = before ++ rest
  index_eq : index = (codes before).length

namespace At

variable {source : String} {before text rest : List Char} {index : Nat}

theorem start (source : String) : At source [] source.toList 0 := ⟨rfl, rfl⟩

theorem ahead (h : At source before rest index) : Ahead source (codes rest) index := by
  have hcodes : codes source.toList = codes before ++ codes rest := by rw [h.split, codes_append]
  refine ⟨?_, ?_⟩
  · rw [size_eq, hcodes, h.index_eq, List.length_append]
    exact Nat.le_add_right _ _
  · rw [hcodes, h.index_eq, List.drop_left]

theorem lt_size (h : At source before rest index) (hrest : rest ≠ []) : index < size source := by
  obtain ⟨b, more, hcodes⟩ := List.exists_cons_of_ne_nil (mt codes_eq_nil_iff.mp hrest)
  exact (hcodes ▸ h.ahead).lt_size

/-- The index behind a text stands between two parts again. -/
theorem behind (h : At source before (text ++ rest) index) :
    At source (before ++ text) rest (index + (codes text).length) where
  split := by rw [h.split, List.append_assoc]
  index_eq := by rw [codes_append, List.length_append, h.index_eq]

theorem isBoundary (h : At source before rest index) : IsBoundary source index := by
  refine String.Pos.Raw.isValid_iff_exists_append.mpr
    ⟨String.ofList before, String.ofList rest, ?_, ?_⟩
  · rw [← String.ofList_append, ← h.split, String.ofList_toList]
  · rw [h.index_eq, ← length_codes]
    rfl

theorem of_isBoundary (h : IsBoundary source index) :
    ∃ before rest, At source before rest index := by
  obtain ⟨front, behind, rfl, hindex⟩ := String.Pos.Raw.isValid_iff_exists_append.mp h
  refine ⟨front.toList, behind.toList, String.toList_append, ?_⟩
  rw [← size_eq]
  exact congrArg String.Pos.Raw.byteIdx hindex

theorem bytes_eq (h : At source before (text ++ rest) index) :
    ByteScanner.bytes source index (index + (codes text).length) = .ok (codes text) := by
  have hahead := h.ahead
  rw [codes_append] at hahead
  rw [hahead.bytes (by simp), List.take_left]

/-- Between two such indices stands what is between them in the source. -/
theorem text_eq (h : At source before (text ++ rest) index) :
    ByteScanner.text source index (index + (codes text).length) = .ok (String.ofList text) := by
  have hsize : ∀ part : List Char, part.utf8Encode.size = (codes part).length := by
    intro part
    rw [← String.toByteArray_ofList, String.size_toByteArray, ← length_codes]
    rfl
  have hbytes : source.toByteArray =
      before.utf8Encode ++ (text.utf8Encode ++ rest.utf8Encode) := by
    rw [← String.utf8Encode_toList, h.split, List.utf8Encode_append, List.utf8Encode_append]
  have hcut : source.toByteArray.extract index (index + (codes text).length) =
      text.utf8Encode := by
    rw [hbytes, h.index_eq, ← hsize, ← hsize]
    exact (ByteArray.extract_append_size_add (i := 0)).trans
      (ByteArray.extract_append_eq_left rfl)
  unfold ByteScanner.text
  rw [dif_pos ⟨Nat.le_add_right _ _, h.isBoundary, h.behind.isBoundary⟩]
  congr 1
  apply String.toByteArray_inj.mp
  rw [String.toByteArray_ofList]
  exact hcut

end At

end Lox.ByteScanner
