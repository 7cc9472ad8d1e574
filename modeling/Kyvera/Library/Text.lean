import Mathlib
import Kyvera.Library.Checked

/-!
# Texts that can be read back

Facts about concatenated texts, as lists of characters: what a delimiter separates can be told
apart, a decimal numeral determines its number, and so does a numeral padded with zeros.
-/

namespace Text

/-! ## Delimiters -/

/-- Texts without the delimiter are determined by what they are written in front of. -/
theorem append_cons_inj {α : Type} {p : α → Prop} {xs ys r s : List α} {c d : α}
    (hxs : ∀ x ∈ xs, p x) (hys : ∀ y ∈ ys, p y) (hc : ¬ p c) (hd : ¬ p d)
    (h : xs ++ c :: r = ys ++ d :: s) : xs = ys ∧ c :: r = d :: s := by
  induction xs generalizing ys with
  | nil =>
      cases ys with
      | nil => exact ⟨rfl, h⟩
      | cons y ys =>
          rw [List.nil_append, List.cons_append] at h
          exact absurd ((List.cons.inj h).1 ▸ hys y List.mem_cons_self) hc
  | cons x xs ih =>
      cases ys with
      | nil =>
          rw [List.nil_append, List.cons_append] at h
          exact absurd ((List.cons.inj h).1 ▸ hxs x List.mem_cons_self) hd
      | cons y ys =>
          obtain ⟨rfl, htail⟩ := List.cons.inj h
          obtain ⟨rfl, hrest⟩ := ih (fun z hz => hxs z (List.mem_cons_of_mem _ hz))
            (fun z hz => hys z (List.mem_cons_of_mem _ hz)) htail
          exact ⟨rfl, hrest⟩

theorem append_cons_inj_right {α : Type} {xs ys r s : List α} {c : α}
    (hxs : c ∉ xs) (hys : c ∉ ys) (h : r ++ c :: xs = s ++ c :: ys) : r = s ∧ xs = ys := by
  have hreverse : xs.reverse ++ c :: r.reverse = ys.reverse ++ c :: s.reverse := by
    have e := congrArg List.reverse h
    simpa only [List.reverse_append, List.reverse_cons, List.append_assoc, List.singleton_append]
      using e
  have hne : ∀ zs : List α, c ∉ zs → ∀ z ∈ zs.reverse, z ≠ c := by
    intro zs hzs z hz e
    exact hzs (e ▸ List.mem_reverse.1 hz)
  obtain ⟨hvalue, hrest⟩ := append_cons_inj (p := fun z => z ≠ c) (hne xs hxs) (hne ys hys)
    (not_not.2 rfl) (not_not.2 rfl) hreverse
  exact ⟨List.reverse_injective (List.cons.inj hrest).2, List.reverse_injective hvalue⟩

/-- A text followed by labelled fields: each label, the delimiter and the value. -/
def record {α : Type} (c : α) : List α → List (List α × List α) → List α
  | start, [] => start
  | start, (label, value) :: fields => record c (start ++ label ++ c :: value) fields

/-- Records with the same labels are read back from the right, if no value has a delimiter. -/
theorem record_inj {α : Type} {c : α} {fields fields' : List (List α × List α)} {r s : List α}
    (hlabels : fields.map Prod.fst = fields'.map Prod.fst)
    (hvalues : ∀ e ∈ fields, c ∉ e.2) (hvalues' : ∀ e ∈ fields', c ∉ e.2)
    (h : record c r fields = record c s fields') : r = s ∧ fields = fields' := by
  induction fields generalizing fields' r s with
  | nil =>
      cases fields' with
      | nil => exact ⟨h, rfl⟩
      | cons e' fields' => cases hlabels
  | cons e fields ih =>
      cases fields' with
      | nil => cases hlabels
      | cons e' fields' =>
          obtain ⟨label, value⟩ := e
          obtain ⟨label', value'⟩ := e'
          obtain ⟨rfl, htail⟩ := List.cons.inj hlabels
          obtain ⟨hvalue, hrest⟩ := List.forall_mem_cons.1 hvalues
          obtain ⟨hvalue', hrest'⟩ := List.forall_mem_cons.1 hvalues'
          obtain ⟨hstart, rfl⟩ := ih htail hrest hrest' h
          obtain ⟨hbefore, rfl⟩ := append_cons_inj_right hvalue hvalue' hstart
          exact ⟨List.append_cancel_right hbefore, rfl⟩

/-- A text that is written twice, the second time with each character replaced by a text, can be
read back: a proper prefix of it would be shorter twice. -/
theorem append_flatMap_inj {α : Type} {f : α → List α} {m xs ys : List α}
    (h : xs ++ m ++ xs.flatMap f = ys ++ m ++ ys.flatMap f) : xs = ys := by
  have key : ∀ us vs zs : List α, us = vs ++ zs →
      us ++ m ++ us.flatMap f = vs ++ m ++ vs.flatMap f → us = vs := by
    intro us vs zs hsplit e
    have hlength := congrArg List.length e
    rw [hsplit, List.flatMap_append] at hlength
    simp only [List.length_append] at hlength
    have hzs : zs = [] := List.length_eq_zero_iff.1 (by omega)
    rw [hsplit, hzs, List.append_nil]
  rw [List.append_assoc, List.append_assoc] at h
  rcases List.append_eq_append_iff.1 h with ⟨zs, hzs, -⟩ | ⟨zs, hzs, -⟩
  · rw [← List.append_assoc, ← List.append_assoc] at h
    exact (key ys xs zs hzs h.symm).symm
  · rw [← List.append_assoc, ← List.append_assoc] at h
    exact key xs ys zs hzs h

theorem map_length_of_forall {α : Type} {n : ℕ} {L : List (List α)} (hL : ∀ l ∈ L, l.length = n) :
    L.map List.length = List.replicate L.length n := by
  rw [List.eq_replicate_iff]
  refine ⟨List.length_map _, fun k hk => ?_⟩
  obtain ⟨l, hl, rfl⟩ := List.mem_map.1 hk
  exact hL l hl

theorem length_flatten_of_forall {α : Type} {n : ℕ} {L : List (List α)}
    (hL : ∀ l ∈ L, l.length = n) : L.flatten.length = L.length * n := by
  rw [List.length_flatten, map_length_of_forall hL, List.sum_replicate_nat]

/-- Texts of one length can be told apart after they were joined. -/
theorem flatten_inj {α : Type} {n : ℕ} (hn : 0 < n) {L L' : List (List α)}
    (hL : ∀ l ∈ L, l.length = n) (hL' : ∀ l ∈ L', l.length = n) (h : L.flatten = L'.flatten) :
    L = L' := by
  have hsize := congrArg List.length h
  rw [length_flatten_of_forall hL, length_flatten_of_forall hL'] at hsize
  rw [List.eq_iff_flatten_eq, map_length_of_forall hL, map_length_of_forall hL',
    Nat.eq_of_mul_eq_mul_right hn hsize]
  exact ⟨h, rfl⟩

theorem utf8ByteSize_of_forall {s : String} (h : ∀ c ∈ s.toList, c.utf8Size = 1) :
    s.utf8ByteSize = s.toList.length := by
  rw [← String.utf8Len_toList]
  generalize s.toList = cs at h
  induction cs with
  | nil => rfl
  | cons c cs ih =>
      obtain ⟨hc, hcs⟩ := List.forall_mem_cons.1 h
      rw [String.utf8Len, ih hcs, hc, List.length_cons]

theorem length_le_utf8ByteSize (s : String) : s.toList.length ≤ s.utf8ByteSize := by
  rw [← String.utf8Len_toList]
  generalize s.toList = cs
  induction cs with
  | nil => exact le_rfl
  | cons c cs ih =>
      rw [String.utf8Len, List.length_cons]
      exact Nat.add_le_add ih (Char.utf8Size_pos c)

/-- The first `n` characters all pass a test when the run of passing characters at the front has at
least `n`. -/
theorem all_take_iff {α : Type} {p : α → Bool} {l : List α} {n : ℕ} (hn : n ≤ l.length) :
    (l.take n).all p = true ↔ n ≤ (l.takeWhile p).length := by
  induction l generalizing n with
  | nil =>
      rw [List.length_nil, Nat.le_zero] at hn
      simp [hn]
  | cons a rest ih =>
      cases n with
      | zero => simp
      | succ n =>
          rw [List.take_succ_cons, List.all_cons, List.takeWhile_cons]
          cases hp : p a with
          | false => simp
          | true => simpa using ih (Nat.le_of_succ_le_succ hn)

/-- The first `n` bytes of a text; `none` is a cut past its end or within a character. -/
def takeBytes : ℕ → List Char → Option (List Char)
  | 0, _ => some []
  | _ + 1, [] => none
  | n + 1, c :: cs =>
      if n + 1 < c.utf8Size then none
      else (takeBytes (n + 1 - c.utf8Size) cs).map (c :: ·)
  termination_by structural _ cs => cs

/-- The text up to a byte; `none` is a cut past its end or within a character. -/
def cut (n : ℕ) (s : String) : Option String := (takeBytes n s.toList).map String.ofList

/-- A text can be cut after `n` bytes: it has as many, and a character ends there. -/
def CutsAt (n : ℕ) (s : String) : Prop :=
  ∃ front back : String, s = front ++ back ∧ front.utf8ByteSize = n

theorem takeBytes_eq_some_iff {n : ℕ} {cs front : List Char} :
    takeBytes n cs = some front ↔ ∃ back, cs = front ++ back ∧ String.utf8Len front = n := by
  induction cs generalizing n front with
  | nil =>
      cases n with
      | zero =>
          constructor
          · intro h
            cases h
            exact ⟨[], rfl, rfl⟩
          · rintro ⟨back, h, -⟩
            rw [(List.append_eq_nil_iff.1 h.symm).1, takeBytes]
      | succ n =>
          rw [takeBytes]
          refine iff_of_false (by simp) ?_
          rintro ⟨back, h, hsize⟩
          rw [(List.append_eq_nil_iff.1 h.symm).1] at hsize
          cases hsize
  | cons c cs ih =>
      have hpos := c.utf8Size_pos
      cases n with
      | zero =>
          rw [takeBytes]
          constructor
          · intro h
            cases h
            exact ⟨c :: cs, rfl, rfl⟩
          · rintro ⟨back, -, hsize⟩
            rcases front with _ | ⟨d, ds⟩
            · rfl
            · have := d.utf8Size_pos
              rw [String.utf8Len] at hsize
              omega
      | succ n =>
          rw [takeBytes]
          constructor
          · intro h
            split_ifs at h with hlt
            obtain ⟨front', hfront, rfl⟩ := Option.map_eq_some_iff.1 h
            obtain ⟨back, rfl, hsize⟩ := ih.1 hfront
            refine ⟨back, rfl, ?_⟩
            rw [String.utf8Len]
            omega
          · rintro ⟨back, h, hsize⟩
            rcases front with _ | ⟨d, ds⟩
            · cases hsize
            · obtain ⟨rfl, rfl⟩ := List.cons.inj h
              rw [String.utf8Len] at hsize
              rw [if_neg (by omega), ih.2 ⟨back, rfl, by omega⟩]
              rfl

theorem isSome_takeBytes_iff {n : ℕ} {s : String} :
    (takeBytes n s.toList).isSome ↔ CutsAt n s := by
  rw [Option.isSome_iff_exists]
  constructor
  · rintro ⟨front, h⟩
    obtain ⟨back, hs, hsize⟩ := takeBytes_eq_some_iff.1 h
    refine ⟨String.ofList front, String.ofList back, ?_, ?_⟩
    · rw [← String.toList_inj, String.toList_append, String.toList_ofList, String.toList_ofList, hs]
    · rw [← String.utf8Len_toList, String.toList_ofList, hsize]
  · rintro ⟨front, back, rfl, hsize⟩
    refine ⟨front.toList, takeBytes_eq_some_iff.2 ⟨back.toList, String.toList_append, ?_⟩⟩
    rw [String.utf8Len_toList, hsize]

theorem isSome_cut_iff {n : ℕ} {s : String} : (cut n s).isSome ↔ CutsAt n s := by
  rw [cut, Option.isSome_map, isSome_takeBytes_iff]

/-- A text of one-byte characters can be cut wherever it is long enough. -/
theorem cutsAt_of_forall {n : ℕ} {s : String} (h : ∀ c ∈ s.toList, c.utf8Size = 1)
    (hn : n ≤ s.toList.length) : CutsAt n s := by
  refine ⟨String.ofList (s.toList.take n), String.ofList (s.toList.drop n), ?_, ?_⟩
  · rw [← String.toList_inj, String.toList_append, String.toList_ofList, String.toList_ofList,
      List.take_append_drop]
  · rw [utf8ByteSize_of_forall, String.toList_ofList, List.length_take_of_le hn]
    intro c hc
    rw [String.toList_ofList] at hc
    exact h c (List.mem_of_mem_take hc)

/-! ## Decimal numerals -/

/-- The decimal digits of a number. -/
def digits (n : ℕ) : List Char := Nat.toDigits 10 n

theorem toList_repr (n : ℕ) : (Nat.repr n).toList = digits n := Nat.toList_repr

theorem toList_toString_uint64 (n : UInt64) : (toString n).toList = digits n.toNat :=
  toList_repr n.toNat

theorem toList_toString_uint32 (n : UInt32) : (toString n).toList = digits n.toNat :=
  toList_repr n.toNat

theorem isDigit_of_mem_digits {n : ℕ} {c : Char} (hc : c ∈ digits n) : c.isDigit = true :=
  Nat.isDigit_of_mem_toDigits (by decide) (by decide) hc

theorem digits_injective {n m : ℕ} (h : digits n = digits m) : n = m := by
  have e := congrArg (fun l => Nat.ofDigitChars 10 l 0) h
  simpa only [digits, Nat.ofDigitChars_ten_toDigits] using e

theorem digits_uint64_injective {n m : UInt64} (h : digits n.toNat = digits m.toNat) : n = m :=
  UInt64.toNat.inj (digits_injective h)

theorem digits_uint32_injective {n m : UInt32} (h : digits n.toNat = digits m.toNat) : n = m :=
  UInt32.toNat.inj (digits_injective h)

theorem minus_notMem_digits (n : ℕ) : '-' ∉ digits n := by
  intro h
  have hdigit := isDigit_of_mem_digits h
  revert hdigit
  decide

/-- The decimal digits of an integer, behind a minus sign if it is negative. -/
def intDigits (z : ℤ) : List Char := (toString z).toList

theorem intDigits_injective {a b : ℤ} (h : intDigits a = intDigits b) : a = b := by
  have natural : ∀ n : ℕ, intDigits (Int.ofNat n) = digits n := toList_repr
  have negative : ∀ n : ℕ, intDigits (Int.negSucc n) = '-' :: digits (n + 1) := by
    intro n
    show ("-" ++ Nat.repr (n + 1)).toList = _
    rw [String.toList_append, toList_repr]
    rfl
  cases a with
  | ofNat n =>
      cases b with
      | ofNat m =>
          rw [natural, natural] at h
          rw [digits_injective h]
      | negSucc m =>
          rw [natural, negative] at h
          exact absurd (h ▸ List.mem_cons_self) (minus_notMem_digits n)
  | negSucc n =>
      cases b with
      | ofNat m =>
          rw [natural, negative] at h
          exact absurd (h ▸ List.mem_cons_self) (minus_notMem_digits m)
      | negSucc m =>
          rw [negative, negative] at h
          rw [Nat.succ.inj (digits_injective (List.cons.inj h).2)]

theorem digits_eq_cons (n : ℕ) : ∃ c cs, digits n = c :: cs ∧ c.isDigit = true := by
  rcases h : digits n with _ | ⟨c, cs⟩
  · exact absurd h Nat.toDigits_ne_nil
  · exact ⟨c, cs, rfl, isDigit_of_mem_digits (h ▸ List.mem_cons_self)⟩

/-- A number in decimal, padded on the left with zeros. -/
def padded (width n : ℕ) : List Char :=
  List.replicate (width - (digits n).length) '0' ++ digits n

theorem ofDigitChars_padded (width n : ℕ) : Nat.ofDigitChars 10 (padded width n) 0 = n := by
  rw [padded, Nat.ofDigitChars_append, Nat.ofDigitChars_replicate_zero, Nat.mul_zero]
  exact Nat.ofDigitChars_ten_toDigits

theorem padded_injective {width n m : ℕ} (h : padded width n = padded width m) : n = m := by
  rw [← ofDigitChars_padded width n, h, ofDigitChars_padded width m]

theorem isDigit_of_mem_padded {width n : ℕ} {c : Char} (hc : c ∈ padded width n) :
    c.isDigit = true := by
  rcases List.mem_append.1 hc with h | h
  · rw [List.eq_of_mem_replicate h]
    decide
  · exact isDigit_of_mem_digits h

theorem toNat_of_isDigit {c : Char} (hc : c.isDigit = true) : 48 ≤ c.toNat ∧ c.toNat ≤ 57 := by
  simpa [Char.isDigit, UInt32.le_iff_toNat_le] using hc

theorem mem_hex_of_isDigit {c : Char} (hc : c.isDigit = true) : c ∈ "0123456789abcdef".toList := by
  obtain ⟨hlo, hhi⟩ := toNat_of_isDigit hc
  have e : c = Char.ofNat c.toNat := c.ofNat_toNat.symm
  rw [e]
  generalize c.toNat = n at hlo hhi
  interval_cases n <;> decide

theorem length_padded {width n : ℕ} (hw : 0 < width) (h : n < 10 ^ width) :
    (padded width n).length = width := by
  have hle : (digits n).length ≤ width := (Nat.length_toDigits_le_iff (by decide) hw).2 h
  rw [padded, List.length_append, List.length_replicate]
  omega

/-! ## The order of numerals -/

/-- The value of a digit. -/
def digitValue (c : Char) : ℕ := c.toNat - '0'.toNat

theorem digitValue_lt_ten {c : Char} (hc : c.isDigit = true) : digitValue c < 10 := by
  have h := toNat_of_isDigit hc
  unfold digitValue
  rw [show '0'.toNat = 48 from rfl]
  omega

theorem digitValue_lt_of_lt {c d : Char} (hc : c.isDigit = true) (h : c < d) :
    digitValue c < digitValue d := by
  have hbounds := toNat_of_isDigit hc
  have hlt : c.toNat < d.toNat := h
  unfold digitValue
  rw [show '0'.toNat = 48 from rfl]
  omega

theorem ofDigitChars_cons_zero (c : Char) (cs : List Char) :
    Nat.ofDigitChars 10 (c :: cs) 0 =
      10 ^ cs.length * digitValue c + Nat.ofDigitChars 10 cs 0 := by
  rw [Nat.ofDigitChars_cons, Nat.ofDigitChars_eq_ofDigitChars_zero, Nat.mul_zero, Nat.zero_add]
  rfl

theorem ofDigitChars_lt_pow {cs : List Char} (hcs : ∀ c ∈ cs, c.isDigit = true) :
    Nat.ofDigitChars 10 cs 0 < 10 ^ cs.length := by
  induction cs with
  | nil => exact Nat.one_pos
  | cons c cs ih =>
      obtain ⟨hc, hrest⟩ := List.forall_mem_cons.1 hcs
      rw [ofDigitChars_cons_zero, List.length_cons, Nat.pow_succ]
      have hle := Nat.mul_le_mul_left (10 ^ cs.length) (Nat.succ_le_of_lt (digitValue_lt_ten hc))
      rw [Nat.succ_eq_add_one, Nat.mul_add] at hle
      have hlt := ih hrest
      omega

/-- Among digits of one length, the larger number is the larger text. -/
theorem lt_of_ofDigitChars_lt {xs ys : List Char} (hxs : ∀ c ∈ xs, c.isDigit = true)
    (hys : ∀ c ∈ ys, c.isDigit = true) (hlength : xs.length = ys.length)
    (h : Nat.ofDigitChars 10 xs 0 < Nat.ofDigitChars 10 ys 0) : xs < ys := by
  induction xs generalizing ys with
  | nil =>
      rw [List.length_eq_zero_iff.1 hlength.symm] at h
      exact absurd h (Nat.lt_irrefl _)
  | cons x xs ih =>
      rcases ys with _ | ⟨y, ys⟩
      · cases hlength
      · have hrest := (List.forall_mem_cons.1 hxs).2
        obtain ⟨hy, hrest'⟩ := List.forall_mem_cons.1 hys
        have htail : xs.length = ys.length := Nat.succ.inj hlength
        rw [ofDigitChars_cons_zero, ofDigitChars_cons_zero, htail] at h
        rw [List.cons_lt_cons_iff]
        rcases lt_trichotomy x y with hlt | rfl | hgt
        · exact .inl hlt
        · exact .inr ⟨rfl, ih hrest hrest' htail (Nat.lt_of_add_lt_add_left h)⟩
        · -- A larger leading digit outweighs everything behind the smaller one.
          have hle := Nat.mul_le_mul_left (10 ^ ys.length)
            (Nat.succ_le_of_lt (digitValue_lt_of_lt hy hgt))
          rw [Nat.succ_eq_add_one, Nat.mul_add] at hle
          have hsmall := ofDigitChars_lt_pow hrest'
          omega

theorem padded_lt {width n m : ℕ} (hw : 0 < width) (h : n < m) (hm : m < 10 ^ width) :
    padded width n < padded width m := by
  refine lt_of_ofDigitChars_lt (fun c => isDigit_of_mem_padded) (fun c => isDigit_of_mem_padded)
    ?_ ?_
  · rw [length_padded hw (h.trans hm), length_padded hw hm]
  · rwa [ofDigitChars_padded, ofDigitChars_padded]

/-- Of two texts of one length the smaller one stays the smaller one, whatever follows. -/
theorem append_lt_append {xs ys : List Char} (h : xs < ys) (hlength : xs.length = ys.length)
    (cs ds : List Char) : xs ++ cs < ys ++ ds := by
  induction xs generalizing ys with
  | nil =>
      rw [List.length_eq_zero_iff.1 hlength.symm] at h
      exact absurd h (List.lt_irrefl _)
  | cons x xs ih =>
      rcases ys with _ | ⟨y, ys⟩
      · cases hlength
      · rw [List.cons_append, List.cons_append, List.cons_lt_cons_iff]
        rcases List.cons_lt_cons_iff.1 h with hlt | ⟨rfl, hlt⟩
        · exact .inl hlt
        · exact .inr ⟨rfl, ih hlt (Nat.succ.inj hlength)⟩

/-! ## Reading numbers -/

/-- Read decimal digits into a 64-bit number, starting from `acc`.  The first character that is no
digit, or that makes the number too large, decides the error. -/
def parseDigits (acc : ℕ) : List Char → Except String UInt64
  | [] => .ok (UInt64.ofNat acc)
  | c :: cs =>
      if ¬ c.isDigit then .error "invalid digit found in string"
      else
        let next := 10 * acc + (c.toNat - '0'.toNat)
        if next < U64.size then parseDigits next cs
        else .error "number too large to fit in target type"

/-- Read a 64-bit number in decimal, with or without a plus sign. -/
def parseUInt64 (s : String) : Except String UInt64 :=
  match s.toList with
  | [] => .error "cannot parse integer from empty string"
  | '+' :: c :: cs => parseDigits 0 (c :: cs)
  | cs => parseDigits 0 cs

theorem le_ofDigitChars (cs : List Char) (acc : ℕ) : acc ≤ Nat.ofDigitChars 10 cs acc := by
  rw [Nat.ofDigitChars_eq_ofDigitChars_zero]
  have hpow : 0 < 10 ^ cs.length := Nat.pow_pos (by decide)
  exact (Nat.le_mul_of_pos_left acc hpow).trans (Nat.le_add_right _ _)

theorem parseDigits_of_lt {cs : List Char} {acc : ℕ} (hcs : ∀ c ∈ cs, c.isDigit = true)
    (hlt : Nat.ofDigitChars 10 cs acc < U64.size) :
    parseDigits acc cs = .ok (UInt64.ofNat (Nat.ofDigitChars 10 cs acc)) := by
  induction cs generalizing acc with
  | nil => rfl
  | cons c cs ih =>
      obtain ⟨hc, hrest⟩ := List.forall_mem_cons.1 hcs
      rw [Nat.ofDigitChars_cons] at hlt ⊢
      rw [parseDigits, if_neg (not_not.2 hc)]
      dsimp only
      rw [if_pos ((le_ofDigitChars cs _).trans_lt hlt), ih hrest hlt]

/-- A 64-bit number is read back from its numeral. -/
theorem parseUInt64_toString (n : UInt64) : parseUInt64 (toString n) = .ok n := by
  have hvalue : Nat.ofDigitChars 10 (digits n.toNat) 0 = n.toNat := Nat.ofDigitChars_ten_toDigits
  have hlt : Nat.ofDigitChars 10 (digits n.toNat) 0 < U64.size := by
    rw [hvalue]
    exact U64.toNat_lt_size n
  have hparse : parseDigits 0 (digits n.toNat) = .ok n := by
    rw [parseDigits_of_lt (fun c hc => isDigit_of_mem_digits hc) hlt, hvalue, UInt64.ofNat_toNat]
  obtain ⟨c, cs, hdigits, hc⟩ := digits_eq_cons n.toNat
  have hplus : c ≠ '+' := by
    rintro rfl
    exact absurd hc (by decide)
  unfold parseUInt64
  rw [toList_toString_uint64, hdigits]
  rw [hdigits] at hparse
  split
  · rename_i h
    cases h
  · rename_i h
    cases h
    exact absurd rfl hplus
  · exact hparse

end Text
