import GhafGivc.Core.Delimited
import Mathlib.Algebra.Order.Ring.Nat

/-! # Text at the level of characters and UTF-8 offsets

Strings are handled as their character lists. Slicing is by UTF-8 byte offset, as
in the modelled languages: an offset past the end or inside a character has no
slice.
-/

namespace Core.Text

def byteLen (cs : List Char) : Nat := (cs.map Char.utf8Size).sum

/-- Cut at a byte offset, when the offset is a character boundary of the text. -/
def splitAtBytes : Nat → List Char → Option (List Char × List Char)
  | 0, cs => some ([], cs)
  | _ + 1, [] => none
  | n + 1, c :: cs =>
      if c.utf8Size ≤ n + 1 then
        (splitAtBytes (n + 1 - c.utf8Size) cs).map fun p => (c :: p.1, p.2)
      else none

def eqIgnoreAsciiCase (a b : List Char) : Bool := a.map Char.toLower == b.map Char.toLower

/-- Characters with the Unicode property `White_Space`. -/
def isWhitespace (c : Char) : Bool :=
  let n := c.toNat
  (9 ≤ n && n ≤ 13) || n = 32 || n = 133 || n = 160 || n = 5760 || (8192 ≤ n && n ≤ 8202) ||
    n = 8232 || n = 8233 || n = 8239 || n = 8287 || n = 12288

/-- The maximal whitespace-free pieces of a text, in order. -/
def splitWhitespace (cs : List Char) : List (List Char) :=
  (cs.splitOnP isWhitespace).filter (· ≠ [])

def trim (cs : List Char) : List Char :=
  ((cs.dropWhile isWhitespace).reverse.dropWhile isWhitespace).reverse

/-- The lines of a text without their line ends; what follows the last line end is a line
when it is not empty. -/
def lines (cs : List Char) : List (List Char) :=
  let parts := cs.splitOnP (· = '\n')
  (parts.dropLast.map fun line => if line.getLast? = some '\r' then line.dropLast else line) ++
    parts.getLast?.toList.filter (· ≠ [])

/-- Decimal digits with an optional leading plus sign, below `2 ^ width`. -/
def parseUnsigned (width : Nat) (cs : List Char) : Option Nat :=
  let digits := match cs with
    | '+' :: rest => rest
    | _ => cs
  if digits ≠ [] ∧ digits.all Char.isDigit then
    let value := Nat.ofDigitChars 10 digits 0
    if value < 2 ^ width then some value else none
  else none

/-- Decimal digits only, below `2 ^ width`. -/
def parseUint (width : Nat) (cs : List Char) : Option Nat :=
  if cs ≠ [] ∧ cs.all Char.isDigit then
    let value := Nat.ofDigitChars 10 cs 0
    if value < 2 ^ width then some value else none
  else none

/-- Whether the number is negative, and what follows the sign. -/
def splitSign : List Char → Bool × List Char
  | '-' :: rest => (true, rest)
  | '+' :: rest => (false, rest)
  | cs => (false, cs)

/-- Decimal digits with an optional sign, in the range of a signed number of this width. -/
def parseSigned (width : Nat) (cs : List Char) : Option Int :=
  let (negative, digits) := splitSign cs
  if digits ≠ [] ∧ digits.all Char.isDigit then
    let value := Nat.ofDigitChars 10 digits 0
    if negative then if value ≤ 2 ^ (width - 1) then some (-value) else none
    else if value < 2 ^ (width - 1) then some value else none
  else none

def stripLead (lead cs : List Char) : Option (List Char) :=
  if lead.isPrefixOf cs then some (cs.drop lead.length) else none

@[simp] theorem byteLen_nil : byteLen [] = 0 := rfl

@[simp] theorem byteLen_cons (c : Char) (cs : List Char) :
    byteLen (c :: cs) = c.utf8Size + byteLen cs := by
  simp [byteLen]

@[simp] theorem byteLen_append (a b : List Char) : byteLen (a ++ b) = byteLen a + byteLen b := by
  simp [byteLen]

theorem splitAtBytes_eq_some {n : Nat} {cs left right : List Char} :
    splitAtBytes n cs = some (left, right) ↔ cs = left ++ right ∧ byteLen left = n := by
  induction cs generalizing n left with
  | nil =>
      cases n with
      | zero => cases left <;> simp [splitAtBytes, eq_comm]
      | succ n => cases left <;> simp [splitAtBytes]
  | cons c cs ih =>
      have hpos := c.utf8Size_pos
      cases n with
      | zero =>
          cases left with
          | nil => simp [splitAtBytes, eq_comm]
          | cons d ds =>
              have hd := d.utf8Size_pos
              simp only [splitAtBytes, Option.some.injEq, Prod.mk.injEq, reduceCtorEq, false_and,
                byteLen_cons, false_iff, not_and]
              omega
      | succ n =>
          cases left with
          | nil => simp [splitAtBytes]
          | cons d ds =>
              by_cases hle : c.utf8Size ≤ n + 1
              · simp only [splitAtBytes, if_pos hle, Option.map_eq_some_iff, Prod.exists,
                  Prod.mk.injEq, List.cons.injEq, List.cons_append, byteLen_cons]
                constructor
                · rintro ⟨a, b, hab, ⟨rfl, rfl⟩, rfl⟩
                  obtain ⟨rfl, hlen⟩ := ih.mp hab
                  exact ⟨⟨rfl, rfl⟩, by omega⟩
                · rintro ⟨⟨rfl, rfl⟩, hlen⟩
                  exact ⟨ds, right, ih.mpr ⟨rfl, by omega⟩, ⟨rfl, rfl⟩, rfl⟩
              · simp only [splitAtBytes, if_neg hle, List.cons_append, List.cons.injEq,
                  byteLen_cons, reduceCtorEq, false_iff, not_and, and_imp]
                rintro rfl -
                omega

theorem splitAtBytes_append (left right : List Char) :
    splitAtBytes (byteLen left) (left ++ right) = some (left, right) :=
  splitAtBytes_eq_some.mpr ⟨rfl, rfl⟩

variable {c : Char} {cs : List Char} {width n : Nat}

theorem lines_of_notMem (h : '\n' ∉ cs) (hne : cs ≠ []) : lines cs = [cs] := by
  have hparts : cs.splitOnP (fun c => decide (c = '\n')) = [cs] := by
    apply List.splitOnP_eq_singleton
    intro c hc
    simpa using fun e : c = '\n' => h (e ▸ hc)
  simp [lines, hparts, hne]

/-- Lines that are joined are read back, unless a line is empty or ends like a line end. -/
theorem lines_intercalate {parts : List (List Char)} (hne : parts ≠ [])
    (hline : ∀ part ∈ parts, '\n' ∉ part) (hempty : ∀ part ∈ parts, part ≠ [])
    (hreturn : ∀ part ∈ parts, part.getLast? ≠ some '\r') :
    lines (['\n'].intercalate parts) = parts := by
  have hparts : (['\n'].intercalate parts).splitOnP (fun c => decide (c = '\n')) = parts :=
    List.splitOn_intercalate '\n' hline hne
  have hlast := List.getLast?_eq_some_getLast hne
  have hkept : (parts.dropLast.map fun line =>
      if line.getLast? = some '\r' then line.dropLast else line) = parts.dropLast := by
    rw [List.map_congr_left (g := id), List.map_id]
    intro line hline
    exact if_neg (hreturn line (List.dropLast_subset parts hline))
  have hend : (some (parts.getLast hne)).toList.filter (· ≠ []) = [parts.getLast hne] := by
    simpa using hempty _ (List.getLast_mem hne)
  unfold lines
  rw [hparts]
  dsimp only
  rw [hkept, hlast, hend]
  exact List.dropLast_append_getLast hne

theorem splitWhitespace_of_forall_not {w : List Char} (hne : w ≠ [])
    (hw : ∀ c ∈ w, isWhitespace c = false) : splitWhitespace w = [w] := by
  simp [splitWhitespace, List.splitOnP_eq_singleton hw, hne]

theorem splitWhitespace_append_cons (cs cs' : List Char) (hc : isWhitespace c = true) :
    splitWhitespace (cs ++ c :: cs') = splitWhitespace cs ++ splitWhitespace cs' := by
  simp [splitWhitespace, List.splitOnP_append_cons cs cs' hc]

theorem splitWhitespace_intercalate {words : List (List Char)}
    (h : ∀ w ∈ words, w ≠ [] ∧ ∀ c ∈ w, isWhitespace c = false) :
    splitWhitespace ([' '].intercalate words) = words := by
  induction words with
  | nil => rfl
  | cons w words ih =>
      rw [List.forall_mem_cons] at h
      have hw := splitWhitespace_of_forall_not h.1.1 h.1.2
      cases words with
      | nil => simpa using hw
      | cons next rest =>
          rw [List.intercalate_cons_cons, List.append_assoc, List.singleton_append,
            splitWhitespace_append_cons _ _ (by decide), hw, ih h.2]
          rfl

theorem splitWhitespace_nil : splitWhitespace [] = [] := rfl

theorem splitWhitespace_cons (hc : isWhitespace c = true) (cs : List Char) :
    splitWhitespace (c :: cs) = splitWhitespace cs := by
  have h := splitWhitespace_append_cons [] cs hc
  rwa [List.nil_append, splitWhitespace_nil, List.nil_append] at h

theorem splitWhitespace_dropWhile (cs : List Char) :
    splitWhitespace (cs.dropWhile isWhitespace) = splitWhitespace cs := by
  induction cs with
  | nil => rfl
  | cons c cs ih =>
      cases hc : isWhitespace c with
      | false => rw [List.dropWhile_cons_of_neg (by simp [hc])]
      | true => rw [List.dropWhile_cons_of_pos hc, ih, splitWhitespace_cons hc]

theorem splitWhitespace_dropWhile_reverse (cs : List Char) :
    splitWhitespace (cs.dropWhile isWhitespace).reverse = splitWhitespace cs.reverse := by
  induction cs with
  | nil => rfl
  | cons c cs ih =>
      cases hc : isWhitespace c with
      | false => rw [List.dropWhile_cons_of_neg (by simp [hc])]
      | true =>
          rw [List.dropWhile_cons_of_pos hc, ih, List.reverse_cons,
            splitWhitespace_append_cons _ [] hc, splitWhitespace_nil, List.append_nil]

theorem splitWhitespace_trim (cs : List Char) : splitWhitespace (trim cs) = splitWhitespace cs := by
  rw [trim, splitWhitespace_dropWhile_reverse, List.reverse_reverse, splitWhitespace_dropWhile]

theorem splitWhitespace_word_append {w tail : List Char} (hne : w ≠ [])
    (hw : ∀ c ∈ w, isWhitespace c = false) (htail : ∀ c ∈ tail.head?, isWhitespace c = true) :
    splitWhitespace (w ++ tail) = w :: splitWhitespace tail := by
  have hword := splitWhitespace_of_forall_not hne hw
  cases tail with
  | nil => rw [List.append_nil, hword, splitWhitespace_nil]
  | cons c tail =>
      rw [splitWhitespace_append_cons _ _ (htail c rfl), hword, splitWhitespace_cons (htail c rfl)]
      rfl

theorem splitWhitespace_blanks_append {blanks : List Char}
    (h : ∀ c ∈ blanks, isWhitespace c = true) (cs : List Char) :
    splitWhitespace (blanks ++ cs) = splitWhitespace cs := by
  induction blanks with
  | nil => rfl
  | cons c blanks ih =>
      rw [List.forall_mem_cons] at h
      rw [List.cons_append, splitWhitespace_cons h.1, ih h.2]

theorem exists_span (cs : List Char) :
    ∃ w tail, cs = w ++ tail ∧ (∀ c ∈ w, isWhitespace c = false) ∧
      ∀ c ∈ tail.head?, isWhitespace c = true := by
  refine ⟨cs.takeWhile fun c => !isWhitespace c, cs.dropWhile fun c => !isWhitespace c,
    List.takeWhile_append_dropWhile.symm, ?_, ?_⟩
  · intro c hc
    simpa using List.all_eq_true.mp List.all_takeWhile c hc
  · intro c hc
    have hnot := List.head?_dropWhile_not (fun c => !isWhitespace c) cs
    rw [Option.mem_def.mp hc] at hnot
    simpa using hnot

theorem exists_word (hc : isWhitespace c = false) (cs : List Char) :
    ∃ w tail, c :: cs = w ++ tail ∧ w ≠ [] ∧ (∀ d ∈ w, isWhitespace d = false) ∧
      ∀ d ∈ tail.head?, isWhitespace d = true := by
  obtain ⟨w, tail, hcs, hw, htail⟩ := exists_span (c :: cs)
  refine ⟨w, tail, hcs, ?_, hw, htail⟩
  intro hnil
  rw [hnil, List.nil_append] at hcs
  have hblank := htail c (by rw [← hcs]; rfl)
  rw [hc] at hblank
  cases hblank

theorem head?_splitWhitespace_eq_some {cs w : List Char} :
    (splitWhitespace cs).head? = some w ↔
      ∃ blanks tail, cs = blanks ++ w ++ tail ∧ (∀ c ∈ blanks, isWhitespace c = true) ∧ w ≠ [] ∧
        (∀ c ∈ w, isWhitespace c = false) ∧ ∀ c ∈ tail.head?, isWhitespace c = true := by
  constructor
  · intro h
    induction cs with
    | nil => cases h
    | cons c cs ih =>
        cases hc : isWhitespace c with
        | true =>
            rw [splitWhitespace_cons hc] at h
            obtain ⟨blanks, tail, rfl, hblanks, hrest⟩ := ih h
            exact ⟨c :: blanks, tail, rfl, List.forall_mem_cons.mpr ⟨hc, hblanks⟩, hrest⟩
        | false =>
            obtain ⟨w', tail, hcs, hne, hw, htail⟩ := exists_word hc cs
            rw [hcs, splitWhitespace_word_append hne hw htail] at h
            cases h
            exact ⟨[], tail, hcs, by simp, hne, hw, htail⟩
  · intro h
    obtain ⟨blanks, tail, rfl, hblanks, hne, hw, htail⟩ := h
    rw [List.append_assoc, splitWhitespace_blanks_append hblanks,
      splitWhitespace_word_append hne hw htail]
    rfl

theorem exists_splitWhitespace_concat (hc : isWhitespace c = false) (cs : List Char) :
    ∃ words word, splitWhitespace (cs ++ [c]) = words ++ [word ++ [c]] := by
  obtain ⟨w, tail, hcs, hw, htail⟩ := exists_span cs.reverse
  have hword : splitWhitespace (w.reverse ++ [c]) = [w.reverse ++ [c]] := by
    refine splitWhitespace_of_forall_not (by simp) fun d hd => ?_
    rcases List.mem_append.mp hd with hin | hlast
    · exact hw d (List.mem_reverse.mp hin)
    · rw [List.mem_singleton.mp hlast]
      exact hc
  have hcs' : cs = tail.reverse ++ w.reverse := by
    rw [← List.reverse_append, ← hcs, List.reverse_reverse]
  cases tail with
  | nil => exact ⟨[], w.reverse, by rw [hcs', List.reverse_nil, List.nil_append, hword]; rfl⟩
  | cons b tail =>
      refine ⟨splitWhitespace tail.reverse, w.reverse, ?_⟩
      rw [hcs', List.reverse_cons, List.append_assoc, List.append_assoc, List.singleton_append,
        splitWhitespace_append_cons _ _ (htail b rfl), hword]

theorem length_splitWhitespace (cs : List Char) :
    2 * (splitWhitespace cs).length ≤ cs.length + 1 := by
  induction hn : cs.length using Nat.strong_induction_on generalizing cs with
  | _ n ih =>
      subst hn
      cases cs with
      | nil => exact Nat.zero_le _
      | cons c cs =>
          cases hc : isWhitespace c with
          | true =>
              have hrest := ih cs.length (by simp) cs rfl
              rw [splitWhitespace_cons hc, List.length_cons]
              omega
          | false =>
              obtain ⟨w, tail, hcs, hne, hw, htail⟩ := exists_word hc cs
              have hlen := List.length_pos_iff.mpr hne
              rw [hcs, splitWhitespace_word_append hne hw htail, List.length_cons,
                List.length_append]
              cases tail with
              | nil =>
                  rw [splitWhitespace_nil, List.length_nil]
                  omega
              | cons b tail =>
                  have hshorter : tail.length < (c :: cs).length := by
                    rw [hcs, List.length_append, List.length_cons]
                    omega
                  have hrest := ih tail.length hshorter tail rfl
                  rw [splitWhitespace_cons (htail b rfl), List.length_cons]
                  omega

theorem splitWhitespace_ne_nil (h : c ∈ cs) (hc : isWhitespace c = false) :
    splitWhitespace cs ≠ [] := by
  induction cs with
  | nil => cases h
  | cons d cs ih =>
      cases hd : isWhitespace d with
      | true =>
          rw [splitWhitespace_cons hd]
          cases h with
          | head => rw [hc] at hd; cases hd
          | tail _ h => exact ih h
      | false =>
          obtain ⟨w, tail, hcs, hne, hw, htail⟩ := exists_word hd cs
          rw [hcs, splitWhitespace_word_append hne hw htail]
          exact List.cons_ne_nil _ _

theorem isDigit_of_mem_toString {n : Nat} (h : c ∈ (toString n).toList) : c.isDigit = true := by
  rw [Nat.toString_eq_repr, Nat.toList_repr] at h
  exact Nat.isDigit_of_mem_toDigits (by decide) (by decide) h

theorem notMem_toString (h : c.isDigit = false) (n : Nat) : c ∉ (toString n).toList := by
  intro hmem
  rw [isDigit_of_mem_toString hmem] at h
  cases h

theorem splitSign_of_digits (h : ∀ c ∈ cs, c.isDigit = true) : splitSign cs = (false, cs) := by
  unfold splitSign
  split
  · exact absurd (h '-' (by simp)) (by decide)
  · exact absurd (h '+' (by simp)) (by decide)
  · rfl

theorem digits_toString (n : Nat) :
    ((toString n).toList ≠ [] ∧ (toString n).toList.all Char.isDigit = true) ∧
      Nat.ofDigitChars 10 (toString n).toList 0 = n := by
  refine ⟨⟨by simp, ?_⟩, by simp⟩
  exact List.all_eq_true.mpr fun c => isDigit_of_mem_toString

variable {i : Int}

theorem parseSigned_toString_eq_some :
    parseSigned width (toString n).toList = some i ↔ n < 2 ^ (width - 1) ∧ i = n := by
  have hdigits := digits_toString n
  unfold parseSigned
  rw [splitSign_of_digits fun c => isDigit_of_mem_toString]
  dsimp only
  rw [if_pos hdigits.1, hdigits.2]
  simp [eq_comm]

theorem parseSigned_toString (h : n < 2 ^ (width - 1)) :
    parseSigned width (toString n).toList = some (n : Int) :=
  parseSigned_toString_eq_some.mpr ⟨h, rfl⟩

theorem parseSigned_neg_toString (h : n ≤ 2 ^ (width - 1)) :
    parseSigned width ('-' :: (toString n).toList) = some (-n : Int) := by
  have hdigits := digits_toString n
  have hsign : splitSign ('-' :: (toString n).toList) = (true, (toString n).toList) := rfl
  unfold parseSigned
  rw [hsign]
  dsimp only
  rw [if_pos hdigits.1, hdigits.2, if_pos rfl, if_pos h]

theorem digits_of_parseSigned {width : Nat} (h : parseSigned width cs = some i) :
    ∃ digits : List Char,
      (∀ c ∈ digits, c.isDigit = true) ∧
        (cs = digits ∨ cs = '+' :: digits ∨ cs = '-' :: digits) := by
  have hall : (splitSign cs).2.all Char.isDigit = true := by
    by_contra hnot
    unfold parseSigned at h
    dsimp only at h
    rw [if_neg fun hdigits => hnot hdigits.2] at h
    cases h
  refine ⟨(splitSign cs).2, List.all_eq_true.mp hall, ?_⟩
  unfold splitSign
  split <;> simp

theorem parseUnsigned_toString (h : n < 2 ^ width) :
    parseUnsigned width (toString n).toList = some n := by
  have hdigits := digits_toString n
  have hcut : (match (toString n).toList with
      | '+' :: rest => rest
      | _ => (toString n).toList) = (toString n).toList := by
    split
    · rename_i rest hplus
      have hmem : '+' ∈ (toString n).toList := hplus ▸ List.mem_cons_self
      exact absurd (isDigit_of_mem_toString hmem) (by decide)
    · rfl
  unfold parseUnsigned
  dsimp only
  rw [hcut, if_pos hdigits.1, hdigits.2, if_pos h]

theorem parseUint_toString (h : n < 2 ^ width) : parseUint width (toString n).toList = some n := by
  have hdigits := digits_toString n
  unfold parseUint
  rw [if_pos hdigits.1, hdigits.2]
  exact if_pos h

theorem toList_toString_negSucc (n : Nat) :
    (toString (Int.negSucc n)).toList = '-' :: (toString (n + 1)).toList := by
  simp [Int.toString_eq_repr, Int.repr, Nat.toString_eq_repr]

theorem isAlpha_iff : c.isAlpha = true ↔
    65 ≤ c.toNat ∧ c.toNat ≤ 90 ∨ 97 ≤ c.toNat ∧ c.toNat ≤ 122 := by
  change (decide ('A'.val ≤ c.val ∧ c.val ≤ 'Z'.val) ||
    decide ('a'.val ≤ c.val) && decide (c.val ≤ 'z'.val)) = true ↔ _
  simp [UInt32.le_iff_toNat_le]

theorem not_isDigit_of_isAlpha (h : c.isAlpha = true) : c.isDigit = false := by
  have hrange := isAlpha_iff.mp h
  cases hdigit : c.isDigit with
  | false => rfl
  | true =>
      simp only [Char.isDigit, ge_iff_le, UInt32.le_iff_toNat_le, Bool.and_eq_true,
        decide_eq_true_eq] at hdigit
      have hle : c.toNat ≤ 57 := hdigit.2
      omega

theorem not_isWhitespace_of_isAlpha (h : c.isAlpha = true) : isWhitespace c = false := by
  have hrange := isAlpha_iff.mp h
  simp only [isWhitespace, Bool.or_eq_false_iff, Bool.and_eq_false_iff, decide_eq_false_iff_not]
  omega

theorem parseUint_of_mem {width : Nat} (hmem : c ∈ cs) (hc : c.isDigit = false) :
    parseUint width cs = none := by
  unfold parseUint
  refine if_neg fun h => ?_
  rw [List.all_eq_true.mp h.2 c hmem] at hc
  cases hc

/-- A printed number below the bound is read back, and one with a sign is refused. -/
theorem parseUint_toString_int {width : Nat} (h : i < 2 ^ width) :
    parseUint width (toString i).toList = if 0 ≤ i then some i.toNat else none := by
  cases i with
  | ofNat n =>
      rw [Int.ofNat_eq_natCast] at h
      have hn : n < 2 ^ width := by exact_mod_cast h
      exact parseUint_toString hn
  | negSucc n =>
      rw [toList_toString_negSucc]
      simp [parseUint]

theorem isWhitespace_of_isDigit (h : c.isDigit = true) : isWhitespace c = false := by
  simp only [Char.isDigit, Bool.and_eq_true, decide_eq_true_eq, ge_iff_le,
    UInt32.le_iff_toNat_le] at h
  have hlow : 48 ≤ c.toNat := h.1
  have hhigh : c.toNat ≤ 57 := h.2
  unfold isWhitespace
  simp only [Bool.or_eq_false_iff, Bool.and_eq_false_iff, decide_eq_false_iff_not]
  omega

theorem toString_int_word (i : Int) :
    (toString i).toList ≠ [] ∧ ∀ c ∈ (toString i).toList, isWhitespace c = false := by
  cases i with
  | ofNat n =>
      refine ⟨(digits_toString n).1.1, fun c hc => ?_⟩
      exact isWhitespace_of_isDigit (isDigit_of_mem_toString hc)
  | negSucc n =>
      rw [toList_toString_negSucc, List.forall_mem_cons]
      refine ⟨List.cons_ne_nil _ _, by decide, fun c hc => ?_⟩
      exact isWhitespace_of_isDigit (isDigit_of_mem_toString hc)

theorem stripLead_eq_some {lead cs rest : List Char} :
    stripLead lead cs = some rest ↔ cs = lead ++ rest := by
  unfold stripLead
  constructor
  · intro h
    split at h
    · rename_i hp
      obtain ⟨t, rfl⟩ := List.isPrefixOf_iff_prefix.mp hp
      simpa using h
    · cases h
  · rintro rfl
    simp

def stripTrail (trail cs : List Char) : Option (List Char) :=
  (stripLead trail.reverse cs.reverse).map List.reverse

theorem stripTrail_eq_some {trail cs rest : List Char} :
    stripTrail trail cs = some rest ↔ cs = rest ++ trail := by
  unfold stripTrail
  rw [Option.map_eq_some_iff]
  constructor
  · rintro ⟨back, hback, rfl⟩
    have hcs := congrArg List.reverse (stripLead_eq_some.mp hback)
    simpa using hcs
  · rintro rfl
    exact ⟨rest.reverse, stripLead_eq_some.mpr (by simp), by simp⟩

def jsonEscape (c : Char) : List Char :=
  if c = '"' ∨ c = '\\' then ['\\', c]
  else if c.toNat < 32 then
    match c.toNat with
    | 8 => ['\\', 'b']
    | 9 => ['\\', 't']
    | 10 => ['\\', 'n']
    | 12 => ['\\', 'f']
    | 13 => ['\\', 'r']
    | n => ['\\', 'u', '0', '0', Nat.digitChar (n / 16), Nat.digitChar (n % 16)]
  else [c]

def json (text : String) : String :=
  String.ofList ('"' :: text.toList.flatMap jsonEscape ++ ['"'])

/-- One character for each byte. -/
def latin1 (bytes : List UInt8) : String := String.ofList (bytes.map Char.ofUInt8)

theorem latin1_injective : Function.Injective latin1 := by
  intro a b h
  have hchars : a.map Char.ofUInt8 = b.map Char.ofUInt8 := String.ofList_injective h
  refine List.map_injective_iff.mpr (fun x y hxy => ?_) hchars
  have hval : x.toUInt32 = y.toUInt32 := congrArg Char.val hxy
  exact UInt8.toNat_inj.mp (by simpa using congrArg UInt32.toNat hval)

end Core.Text
