import WireCodec.Proofs.Except
import WireCodec.Proofs.Length.Grammar

/-!
# Cutting text into tokens

The scan gives the tokens that text spells, and fails on text that spells none: `exists_scan_iff`.
It goes through the text with an open run in hand; `scan_run` says where that run ends.  Blanks at
the ends of the text make no difference.
-/

namespace WireCodec

theorem Operator.ofChar?_eq_some {c : Char} {op : Operator} :
    ofChar? c = some op ↔ c = op.symbol := by
  constructor
  · intro h
    unfold ofChar? at h
    split at h <;> cases h <;> rfl
  · rintro rfl
    exact ofChar?_symbol op

end WireCodec

namespace WireCodec.Text

open Length

/-! ## Characters -/

theorem isDigit_iff {c : Char} : c.isDigit = true ↔ 48 ≤ c.toNat ∧ c.toNat ≤ 57 := by
  show (decide (48 ≤ c.val) && decide (c.val ≤ 57)) = true ↔ _
  simp [UInt32.le_iff_toNat_le]

theorem isAlpha_iff {c : Char} :
    c.isAlpha = true ↔ (65 ≤ c.toNat ∧ c.toNat ≤ 90) ∨ (97 ≤ c.toNat ∧ c.toNat ≤ 122) := by
  show (decide (65 ≤ c.val ∧ c.val ≤ 90) || decide (97 ≤ c.val) && decide (c.val ≤ 122)) = true ↔ _
  simp [UInt32.le_iff_toNat_le]

theorem isWordStart_of_isDigit {c : Char} (h : c.isDigit = true) : isWordStart c = false := by
  have hne : c ≠ '_' := by
    rintro rfl
    cases h
  rw [isDigit_iff] at h
  have hletter : ¬c.isAlpha = true := by
    rw [isAlpha_iff]
    omega
  simp [isWordStart, hne, hletter]

theorem isWordStart_of_isWordChar {c : Char} (h : isWordChar c = true)
    (hdigit : c.isDigit = false) : isWordStart c = true := by
  simpa [isWordChar, isWordStart, Char.isAlphanum, hdigit] using h

theorem isWordChar_of_isBlank {c : Char} (h : isBlank c = true) : isWordChar c = false := by
  have hne : c ≠ '_' := by
    rintro rfl
    cases h
  simp only [isBlank, Bool.or_eq_true, Bool.and_eq_true, decide_eq_true_eq, beq_iff_eq] at h
  have hletter : ¬c.isAlpha = true := by
    rw [isAlpha_iff]
    omega
  have hdigit : ¬c.isDigit = true := by
    rw [isDigit_iff]
    omega
  simp [isWordChar, Char.isAlphanum, hne, hletter, hdigit]

/-! ## Numerals -/

/-- Digits behind a numeral make a longer one. -/
theorem numeral_of_foldlM {base : Nat} {front digits : List Char} {m n : Nat}
    (hfront : Numeral base front m)
    (h : digits.foldlM (fun n c => (digitIn base c).map (n * base + ·)) m = some n) :
    Numeral base (front ++ digits) n := by
  induction digits generalizing front m with
  | nil =>
    cases h
    rwa [List.append_nil]
  | cons c rest ih =>
    rw [List.foldlM_cons] at h
    obtain ⟨k, hk, h⟩ := Option.bind_eq_some_iff.mp h
    obtain ⟨d, hd, rfl⟩ := Option.map_eq_some_iff.mp hk
    have := ih (.more hfront hd) h
    rwa [List.append_assoc] at this

theorem readDigits_eq (base : Nat) {digits : List Char} (h : digits ≠ []) :
    readDigits base digits =
      digits.foldlM (fun n c => (digitIn base c).map (n * base + ·)) 0 := by
  cases digits with
  | nil => exact absurd rfl h
  | cons c rest => rfl

theorem readDigits_snoc (base : Nat) {digits : List Char} (h : digits ≠ []) (c : Char) :
    readDigits base (digits ++ [c]) =
      (readDigits base digits).bind fun n => (digitIn base c).map (n * base + ·) := by
  rw [readDigits_eq base h, readDigits_eq base (by simp), List.foldlM_append]
  simp

theorem readDigits_eq_some {base : Nat} {digits : List Char} {n : Nat} :
    readDigits base digits = some n ↔ Numeral base digits n := by
  constructor
  · intro h
    cases digits with
    | nil => cases h
    | cons c rest =>
      obtain ⟨k, hk, h⟩ := Option.bind_eq_some_iff.mp h
      obtain ⟨d, hd, rfl⟩ := Option.map_eq_some_iff.mp hk
      rw [Nat.zero_mul, Nat.zero_add] at h
      exact numeral_of_foldlM (.digit hd) h
  · intro h
    induction h with
    | digit value => simp [readDigits, value]
    | more front value ih =>
      rw [readDigits_snoc base front.ne_nil, ih]
      simp [value]

/-- A word is read from the numerals of numbers below the limit. -/
theorem readWord_eq_some {base : Nat} {digits : List Char} {n : Nat} :
    readWord base digits = some n ↔ Numeral base digits n ∧ n < wordLimit := by
  rw [readWord, Option.filter_eq_some_iff, readDigits_eq_some, decide_eq_true_iff]

end WireCodec.Text

namespace WireCodec.Length

theorem Numeral.isSome_of_mem {base n : Nat} {digits : List Char} (h : Numeral base digits n)
    {c : Char} (hc : c ∈ digits) : (Text.digitIn base c).isSome = true := by
  induction h with
  | digit value =>
    rw [List.mem_singleton.mp hc, value]
    rfl
  | more front value ih =>
    rcases List.mem_append.mp hc with hc | hc
    · exact ih hc
    · rw [List.mem_singleton.mp hc, value]
      rfl

theorem map_readWord {base : Nat} {digits : List Char} {value : UInt64} :
    (Text.readWord base digits).map UInt64.ofNat = some value ↔
      Numeral base digits value.toNat := by
  rw [Option.map_eq_some_iff]
  constructor
  · rintro ⟨n, hn, rfl⟩
    obtain ⟨hnumeral, hlt⟩ := Text.readWord_eq_some.mp hn
    rwa [UInt64.toNat_ofNat_of_lt' hlt]
  · intro h
    exact ⟨value.toNat, Text.readWord_eq_some.mpr ⟨h, value.toNat_lt⟩, UInt64.ofNat_toNat⟩

/-- A numeral is hexadecimal when it has the mark in front, and decimal otherwise. -/
theorem readInteger_eq_some {digits : List Char} {value : UInt64} :
    readInteger digits = some value ↔ Numeral 10 digits value.toNat ∨
      ∃ x hex, (x = 'x' ∨ x = 'X') ∧ digits = '0' :: x :: hex ∧ Numeral 16 hex value.toNat := by
  -- The mark is no decimal digit, so no text is a numeral in both ways.
  have notDecimal {x : Char} {hex : List Char} {n : Nat} (hx : x = 'x' ∨ x = 'X') :
      ¬Numeral 10 ('0' :: x :: hex) n := by
    intro h
    have hsome := h.isSome_of_mem (c := x) (by simp)
    rcases hx with rfl | rfl <;> cases hsome
  unfold readInteger
  split
  case h_1 hex =>
    rw [map_readWord, or_iff_right (notDecimal (.inl rfl))]
    constructor
    · exact fun h => ⟨'x', hex, .inl rfl, rfl, h⟩
    · rintro ⟨x, other, -, hsplit, h⟩
      cases hsplit
      exact h
  case h_2 hex =>
    rw [map_readWord, or_iff_right (notDecimal (.inr rfl))]
    constructor
    · exact fun h => ⟨'X', hex, .inr rfl, rfl, h⟩
    · rintro ⟨x, other, -, hsplit, h⟩
      cases hsplit
      exact h
  case h_3 hlower hupper =>
    rw [map_readWord, or_iff_left]
    rintro ⟨x, hex, rfl | rfl, hsplit, -⟩
    · exact hlower hex hsplit
    · exact hupper hex hsplit

/-! ## Runs -/

/-- A run that starts with a digit spells a numeral or nothing. -/
theorem runSpells_of_isDigit {c : Char} {rest : List Char} (hdigit : c.isDigit = true)
    {token : Token} :
    RunSpells (c :: rest) token ↔ ∃ value,
      readInteger ((c :: rest).filter (· != '_')) = some value ∧ token = .integer value := by
  constructor
  · intro h
    cases h with
    | name word =>
      rw [Text.isWord, Text.isWordStart_of_isDigit hdigit, Bool.false_and] at word
      cases word
    | @decimal _ _ value _ numeral =>
      exact ⟨value, readInteger_eq_some.mpr (.inl numeral), rfl⟩
    | @hexadecimal _ x _ hex value _ mark split numeral =>
      exact ⟨value, readInteger_eq_some.mpr (.inr ⟨x, hex, mark, split, numeral⟩), rfl⟩
  · rintro ⟨value, hread, rfl⟩
    rcases readInteger_eq_some.mp hread with numeral | ⟨x, hex, mark, split, numeral⟩
    · exact .decimal hdigit numeral
    · exact .hexadecimal hdigit mark split numeral

theorem runSpells_of_not_isDigit {c : Char} {rest : List Char} (hdigit : c.isDigit = false)
    (inside : ∀ d ∈ c :: rest, Text.isWordChar d = true) {token : Token} :
    RunSpells (c :: rest) token ↔ token = .name (String.ofList (c :: rest)) := by
  constructor
  · intro h
    cases h with
    | name word => rfl
    | decimal digit numeral =>
      rw [hdigit] at digit
      cases digit
    | hexadecimal digit mark split numeral =>
      rw [hdigit] at digit
      cases digit
  · rintro rfl
    refine .name ?_
    rw [Text.isWord, Text.isWordStart_of_isWordChar (inside c (List.mem_cons_self ..)) hdigit,
      Bool.true_and, List.all_eq_true]
    exact fun d hd => inside d (List.mem_cons_of_mem c hd)

/-- A run of letters, digits and underscores is read as the token that it spells. -/
theorem readRun_eq_ok {position : Nat} {c : Char} {rest : List Char}
    (inside : ∀ d ∈ c :: rest, Text.isWordChar d = true) {t : Placed} :
    readRun position (c :: rest) = .ok t ↔ ∃ token, RunSpells (c :: rest) token ∧
      t = ⟨position, token⟩ := by
  rw [readRun, List.head?_cons, Option.any_some]
  cases hdigit : c.isDigit with
  | true =>
    simp only [runSpells_of_isDigit hdigit, if_true]
    cases readInteger ((c :: rest).filter (· != '_')) with
    | none => simp
    | some value => simp [eq_comm]
  | false =>
    simp only [runSpells_of_not_isDigit hdigit inside]
    simp [eq_comm]

/-! ## The scan -/

/-- In front of any other character a run ends, and the scan starts anew. -/
theorem scan_end (position : Nat) (run : Option OpenRun) {c : Char}
    (hc : Text.isWordChar c = false) (s : List Char) :
    scan position run (c :: s) = closeRun run fun _ => scan position none (c :: s) := by
  cases run <;> simp [scan, hc, closeRun]

/-- An open run takes every letter, digit and underscore in front of it. -/
theorem scan_run (position : Nat) (r : OpenRun) (s : List Char) :
    scan position (some r) s =
      readRun r.position (r.reversed.reverse ++ s.takeWhile Text.isWordChar) >>= fun t =>
        scan (position + (s.takeWhile Text.isWordChar).length) none
            (s.dropWhile Text.isWordChar) >>= fun ts => .ok (t :: ts) := by
  induction s generalizing position r with
  | nil =>
    simp only [scan, closeRun, List.takeWhile_nil, List.dropWhile_nil, List.append_nil]
    rfl
  | cons c rest ih =>
    by_cases hc : Text.isWordChar c = true
    · rw [scan, if_pos hc, ih, List.takeWhile_cons_of_pos hc, List.dropWhile_cons_of_pos hc,
        List.length_cons, List.reverse_cons, List.append_assoc, List.singleton_append,
        Nat.add_assoc, Nat.add_comm 1]
    · rw [scan_end position _ (by simpa using hc), List.takeWhile_cons_of_neg hc,
        List.dropWhile_cons_of_neg hc, List.append_nil]
      rfl

/-- A run of word characters is read as a whole. -/
theorem scan_word (position : Nat) {c : Char} (hc : Text.isWordChar c = true) (s : List Char) :
    scan position none (c :: s) =
      readRun position (c :: s.takeWhile Text.isWordChar) >>= fun t =>
        scan (position + 1 + (s.takeWhile Text.isWordChar).length) none
            (s.dropWhile Text.isWordChar) >>= fun ts => .ok (t :: ts) := by
  rw [scan, if_pos hc, scan_run]
  rfl

theorem scan_blank (position : Nat) {c : Char} (hc : Text.isBlank c = true) (s : List Char) :
    scan position none (c :: s) = scan (position + 1) none s := by
  rw [scan, if_neg (by simp [Text.isWordChar_of_isBlank hc]), closeRun, if_pos hc]

/-- The characters that are tokens of their own. -/
theorem symbolToken?_eq_some {c : Char} {token : Token} :
    symbolToken? c = some token ↔ (∃ op : Operator, c = op.symbol ∧ token = .operator op) ∨
      (c = '(' ∧ token = .leftParen) ∨ (c = ')' ∧ token = .rightParen) := by
  unfold symbolToken?
  cases hop : Operator.ofChar? c with
  | some op =>
    obtain rfl := Operator.ofChar?_eq_some.mp hop
    constructor
    · intro h
      exact .inl ⟨op, rfl, (Option.some.inj h).symm⟩
    · rintro (⟨other, hother, rfl⟩ | ⟨hparen, -⟩ | ⟨hparen, -⟩)
      · rw [← Operator.ofChar?_eq_some, hop] at hother
        cases hother
        rfl
      · cases op <;> cases hparen
      · cases op <;> cases hparen
  | none =>
    have hnot : ¬∃ op : Operator, c = op.symbol ∧ token = .operator op := by
      rintro ⟨op, rfl, -⟩
      rw [Operator.ofChar?_symbol] at hop
      cases hop
    rw [or_iff_right hnot]
    by_cases hleft : c = '('
    · simp [hleft, eq_comm]
    · by_cases hright : c = ')' <;> simp [hleft, hright, eq_comm]

theorem not_word_of_symbolToken? {c : Char} {token : Token} (h : symbolToken? c = some token) :
    Text.isWordChar c = false ∧ Text.isBlank c = false := by
  rcases symbolToken?_eq_some.mp h with ⟨op, rfl, -⟩ | ⟨rfl, -⟩ | ⟨rfl, -⟩
  · cases op <;> decide
  · decide
  · decide

theorem scan_symbol (position : Nat) {c : Char} {token : Token} (hc : symbolToken? c = some token)
    (s : List Char) :
    scan position none (c :: s) =
      scan (position + 1) none s >>= fun ts => .ok (⟨position, token⟩ :: ts) := by
  obtain ⟨hword, hblank⟩ := not_word_of_symbolToken? hc
  rw [scan, if_neg (by simp [hword]), closeRun, if_neg (by simp [hblank]), hc]
  rfl

theorem spells_symbol {c : Char} {token : Token} (hc : symbolToken? c = some token) {s : List Char}
    {ts : List Token} (h : Spells s ts) : Spells (c :: s) (token :: ts) := by
  rcases symbolToken?_eq_some.mp hc with ⟨op, rfl, rfl⟩ | ⟨rfl, rfl⟩ | ⟨rfl, rfl⟩
  · exact .operator op h
  · exact .leftParen h
  · exact .rightParen h

theorem isWordChar_takeWhile (s : List Char) {c : Char} (h : c ∈ s.takeWhile Text.isWordChar) :
    Text.isWordChar c = true :=
  List.all_eq_true.mp List.all_takeWhile c h

theorem isWordChar_dropWhile (s : List Char) :
    ∀ c ∈ (s.dropWhile Text.isWordChar).head?, Text.isWordChar c = false := by
  intro c hc
  have := List.head?_dropWhile_not Text.isWordChar s
  rwa [Option.mem_def.mp hc] at this

/-- The scan only finds tokens that the text spells. -/
theorem spells_of_scan {position : Nat} {s : List Char} {placed : List Placed}
    (h : scan position none s = .ok placed) : Spells s (placed.map Placed.token) := by
  -- What is left behind a run is shorter by the whole run, so the induction is on the length.
  induction hn : s.length using Nat.strongRecOn generalizing position s placed with
  | _ n ih =>
    cases s with
    | nil =>
      cases h
      exact .nil
    | cons c rest =>
      subst hn
      by_cases hword : Text.isWordChar c = true
      · rw [scan_word position hword] at h
        obtain ⟨t, ht, h⟩ := bind_eq_ok.mp h
        obtain ⟨later, hlater, h⟩ := bind_eq_ok.mp h
        cases h
        have inside : ∀ d ∈ c :: rest.takeWhile Text.isWordChar, Text.isWordChar d = true := by
          intro d hd
          rcases List.mem_cons.mp hd with rfl | hd
          · exact hword
          · exact isWordChar_takeWhile rest hd
        obtain ⟨token, htoken, rfl⟩ := (readRun_eq_ok inside).mp ht
        -- The run that was read is the longest one, so the text behind it does not go on with it.
        have hshorter : (rest.dropWhile Text.isWordChar).length < (c :: rest).length :=
          Nat.lt_succ_of_le (List.dropWhile_sublist _).length_le
        have hrest := ih _ hshorter hlater rfl
        have hsplit : c :: rest = (c :: rest.takeWhile Text.isWordChar) ++
            rest.dropWhile Text.isWordChar := by
          rw [List.cons_append, List.takeWhile_append_dropWhile]
        rw [hsplit]
        exact .run inside (isWordChar_dropWhile rest) htoken hrest
      · by_cases hblank : Text.isBlank c = true
        · rw [scan_blank position hblank] at h
          exact .blank hblank (ih _ (Nat.lt_succ_self _) h rfl)
        · cases hsymbol : symbolToken? c with
          | none =>
            rw [scan, if_neg hword, closeRun, if_neg hblank, hsymbol] at h
            cases h
          | some token =>
            rw [scan_symbol position hsymbol] at h
            obtain ⟨later, hlater, h⟩ := bind_eq_ok.mp h
            cases h
            exact spells_symbol hsymbol (ih _ (Nat.lt_succ_self _) hlater rfl)

/-- A run in front of a character that does not belong to it is taken whole. -/
theorem takeWhile_append_of_maximal {run s : List Char}
    (inside : ∀ c ∈ run, Text.isWordChar c = true)
    (maximal : ∀ c ∈ s.head?, Text.isWordChar c = false) :
    (run ++ s).takeWhile Text.isWordChar = run ∧ (run ++ s).dropWhile Text.isWordChar = s := by
  rw [List.takeWhile_append_of_pos inside, List.dropWhile_append_of_pos inside]
  cases s with
  | nil => simp
  | cons c rest =>
    have hc : ¬Text.isWordChar c = true := by simp [maximal c rfl]
    rw [List.takeWhile_cons_of_neg hc, List.dropWhile_cons_of_neg hc, List.append_nil]
    exact ⟨rfl, rfl⟩

theorem RunSpells.ne_nil {run : List Char} {token : Token} (h : RunSpells run token) :
    run ≠ [] := by
  cases h with
  | name word =>
    rintro rfl
    cases word
  | decimal digit numeral => simp
  | hexadecimal digit mark split numeral => simp

/-- The scan finds all tokens that the text spells. -/
theorem scan_of_spells {s : List Char} {ts : List Token} (h : Spells s ts) (position : Nat) :
    ∃ placed, scan position none s = .ok placed ∧ placed.map Placed.token = ts := by
  -- The three sorts of characters that are tokens of their own.
  have symbol {c : Char} {token : Token} {s : List Char} {ts : List Token}
      (hc : symbolToken? c = some token) (position : Nat)
      (ih : ∀ position, ∃ placed, scan position none s = .ok placed ∧
        placed.map Placed.token = ts) :
      ∃ placed, scan position none (c :: s) = .ok placed ∧
        placed.map Placed.token = token :: ts := by
    obtain ⟨placed, hscan, rfl⟩ := ih (position + 1)
    exact ⟨⟨position, token⟩ :: placed, by rw [scan_symbol position hc, hscan, ok_bind], rfl⟩
  induction h generalizing position with
  | nil => exact ⟨[], rfl, rfl⟩
  | blank hblank rest ih =>
    rw [scan_blank position hblank]
    exact ih (position + 1)
  | operator op rest ih =>
    exact symbol (symbolToken?_eq_some.mpr (.inl ⟨op, rfl, rfl⟩)) position ih
  | leftParen rest ih => exact symbol rfl position ih
  | rightParen rest ih => exact symbol rfl position ih
  | @run run s token ts inside maximal htoken rest ih =>
    cases run with
    | nil => exact absurd rfl htoken.ne_nil
    | cons c run =>
      obtain ⟨htake, hdrop⟩ := takeWhile_append_of_maximal
        (fun d hd => inside d (List.mem_cons_of_mem c hd)) maximal
      obtain ⟨placed, hscan, rfl⟩ := ih (position + 1 + run.length)
      refine ⟨⟨position, token⟩ :: placed, ?_, rfl⟩
      rw [List.cons_append, scan_word position (inside c (List.mem_cons_self ..)), htake, hdrop,
        (readRun_eq_ok inside).mpr ⟨token, htoken, rfl⟩, ok_bind, hscan, ok_bind]

/-- The scan gives tokens exactly when the text spells them. -/
theorem exists_scan_iff (position : Nat) {s : List Char} {ts : List Token} :
    (∃ placed, scan position none s = .ok placed ∧ placed.map Placed.token = ts) ↔ Spells s ts := by
  constructor
  · rintro ⟨placed, hscan, rfl⟩
    exact spells_of_scan hscan
  · exact fun h => scan_of_spells h position

/-- A text spells its tokens in one way. -/
theorem Spells.unique {s : List Char} {ts ts' : List Token} (h : Spells s ts) (h' : Spells s ts') :
    ts = ts' := by
  obtain ⟨placed, hscan, rfl⟩ := scan_of_spells h 0
  obtain ⟨placed', hscan', rfl⟩ := scan_of_spells h' 0
  rw [Except.ok.inj (hscan.symm.trans hscan')]

theorem Spells.head_operator {op : Operator} {s : List Char} {ts : List Token}
    (h : Spells (op.symbol :: s) ts) : ts.head? = some (.operator op) := by
  obtain ⟨placed, hscan, rfl⟩ := scan_of_spells h 0
  rw [scan_symbol 0 (symbolToken?_eq_some.mpr (.inl ⟨op, rfl, rfl⟩))] at hscan
  obtain ⟨later, -, hplaced⟩ := bind_eq_ok.mp hscan
  cases hplaced
  rfl

/-! ## Blanks at the ends -/

theorem spells_cons_of_blank {c : Char} (hc : Text.isBlank c = true) {s : List Char}
    {ts : List Token} : Spells (c :: s) ts ↔ Spells s ts := by
  rw [← exists_scan_iff 0, scan_blank 0 hc]
  exact exists_scan_iff 1

/-- A blank at the end changes nothing. -/
theorem scan_append_of_blank (position : Nat) (run : Option OpenRun) (s : List Char) {c : Char}
    (hc : Text.isBlank c = true) : scan position run (s ++ [c]) = scan position run s := by
  induction s generalizing position run with
  | nil =>
    simp [scan, Text.isWordChar_of_isBlank hc, hc, closeRun]
  | cons d rest ih =>
    rw [List.cons_append]
    simp only [scan, ih]

theorem spells_append_of_blank {c : Char} (hc : Text.isBlank c = true) {s : List Char}
    {ts : List Token} : Spells (s ++ [c]) ts ↔ Spells s ts := by
  rw [← exists_scan_iff 0, ← exists_scan_iff 0, scan_append_of_blank 0 none s hc]

/-- Blanks at the ends of text spell nothing. -/
theorem spells_trim {s : List Char} {ts : List Token} :
    Spells (Text.trim s) ts ↔ Spells s ts := by
  have front (s : List Char) : Spells (s.dropWhile Text.isBlank) ts ↔ Spells s ts := by
    induction s with
    | nil => exact Iff.rfl
    | cons c rest ih =>
      by_cases hc : Text.isBlank c = true
      · rw [List.dropWhile_cons_of_pos hc, ih, spells_cons_of_blank hc]
      · rw [List.dropWhile_cons_of_neg hc]
  -- The end of the text is trimmed on the reversed text.
  have back (s : List Char) :
      Spells (s.dropWhile Text.isBlank).reverse ts ↔ Spells s.reverse ts := by
    induction s with
    | nil => exact Iff.rfl
    | cons c rest ih =>
      by_cases hc : Text.isBlank c = true
      · rw [List.dropWhile_cons_of_pos hc, ih, List.reverse_cons, spells_append_of_blank hc]
      · rw [List.dropWhile_cons_of_neg hc]
  rw [Text.trim, Text.trimEnd, back, List.reverse_reverse, front]

end WireCodec.Length
