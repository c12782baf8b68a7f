import WireCodec.Proofs.Length.Lexing

/-!
# Where tokens stand

The scan places a token at the number of characters in front of it.  The text in front spells the
tokens before, and the text from there on spells the token and those behind it.  Where the scan
fails, the text in front spells tokens too, and what comes next is no token.
-/

namespace WireCodec.Length

/-! ## The pieces of text -/

/-- Text as the scan goes through it, piece by piece, up to a character that belongs to no token. -/
inductive Pieces : List Char → Prop where
  | nil : Pieces []
  | blank {c : Char} {s : List Char} (blank : Text.isBlank c = true) (later : Pieces s) :
    Pieces (c :: s)
  | symbol {c : Char} {s : List Char} {token : Token} (symbol : symbolToken? c = some token)
    (later : Pieces s) : Pieces (c :: s)
  | run {run s : List Char} (nonempty : run ≠ [])
    (inside : ∀ c ∈ run, Text.isWordChar c = true)
    (maximal : ∀ c ∈ s.head?, Text.isWordChar c = false) (later : Pieces s) : Pieces (run ++ s)
  | stray {c : Char} {s : List Char} (word : Text.isWordChar c = false)
    (blank : Text.isBlank c = false) (symbol : symbolToken? c = none) : Pieces (c :: s)

/-- Every text is gone through in pieces. -/
theorem pieces (s : List Char) : Pieces s := by
  induction hn : s.length using Nat.strongRecOn generalizing s with
  | _ n ih =>
    subst hn
    cases s with
    | nil => exact .nil
    | cons c rest =>
      have hrest := ih rest.length (Nat.lt_succ_self _) rest rfl
      cases hword : Text.isWordChar c with
      | true =>
        have hsplit : (c :: rest.takeWhile Text.isWordChar) ++ rest.dropWhile Text.isWordChar =
            c :: rest := by
          rw [List.cons_append, List.takeWhile_append_dropWhile]
        have hshorter : (rest.dropWhile Text.isWordChar).length < (c :: rest).length :=
          Nat.lt_succ_of_le (List.dropWhile_sublist _).length_le
        rw [← hsplit]
        refine .run (by simp) ?_ (isWordChar_dropWhile rest) (ih _ hshorter _ rfl)
        intro d hd
        rcases List.mem_cons.mp hd with rfl | hd
        · exact hword
        · exact isWordChar_takeWhile rest hd
      | false =>
        cases hblank : Text.isBlank c with
        | true => exact .blank hblank hrest
        | false =>
          cases hsymbol : symbolToken? c with
          | some token => exact .symbol hsymbol hrest
          | none => exact .stray hword hblank hsymbol

theorem scan_run_append (position : Nat) {run s : List Char} (nonempty : run ≠ [])
    (inside : ∀ c ∈ run, Text.isWordChar c = true)
    (maximal : ∀ c ∈ s.head?, Text.isWordChar c = false) :
    scan position none (run ++ s) =
      readRun position run >>= fun t =>
        scan (position + run.length) none s >>= fun ts => .ok (t :: ts) := by
  cases run with
  | nil => exact absurd rfl nonempty
  | cons c run =>
    have hrun : ∀ d ∈ run, Text.isWordChar d = true := fun d hd =>
      inside d (List.mem_cons_of_mem c hd)
    obtain ⟨htake, hdrop⟩ := takeWhile_append_of_maximal hrun maximal
    rw [List.cons_append, scan_word position (inside c (List.mem_cons_self ..)), htake, hdrop,
      List.length_cons, Nat.add_assoc, Nat.add_comm 1]

theorem readRun_of_spells (position : Nat) {run : List Char} {token : Token}
    (inside : ∀ c ∈ run, Text.isWordChar c = true) (h : RunSpells run token) :
    readRun position run = .ok ⟨position, token⟩ := by
  cases run with
  | nil => exact absurd rfl h.ne_nil
  | cons c rest => exact (readRun_eq_ok inside).mpr ⟨token, h, rfl⟩

theorem scan_stray (position : Nat) {c : Char} (word : Text.isWordChar c = false)
    (blank : Text.isBlank c = false) (symbol : symbolToken? c = none) (s : List Char) :
    scan position none (c :: s) = .error (.strayCharacter c position) := by
  rw [scan, if_neg (by simp [word]), closeRun, if_neg (by simp [blank]), symbol]

/-! ## Text in front -/

/-- Text that starts with the tokens `ts`: they are spelled by `front`, and no run goes on from
there into `rest`. -/
structure Passed (s front rest : List Char) (ts : List Token) : Prop where
  whole : s = front ++ rest
  apart : ∀ c ∈ front.getLast?, Text.isWordChar c = true →
    ∀ d ∈ rest.head?, Text.isWordChar d = false
  spells : Spells front ts

namespace Passed

variable {s front rest : List Char} {ts : List Token}

theorem nothing (s : List Char) : Passed s [] s [] where
  whole := rfl
  apart := fun c hc => by cases hc
  spells := .nil

/-- A character in front of which and behind which no run goes on. -/
theorem cons {c : Char} (hc : Text.isWordChar c = false) (h : Passed s front rest ts)
    {ts' : List Token} (hspells : Spells (c :: front) ts') :
    Passed (c :: s) (c :: front) rest ts' where
  whole := by rw [h.whole, List.cons_append]
  apart := by
    intro d hd hword
    cases front with
    | nil =>
      rw [List.getLast?_singleton, Option.mem_some_iff] at hd
      rw [← hd, hc] at hword
      cases hword
    | cons first front => exact h.apart d (by rwa [List.getLast?_cons_cons] at hd) hword
  spells := hspells

theorem run {run : List Char} {token : Token} (h : Passed s front rest ts)
    (inside : ∀ c ∈ run, Text.isWordChar c = true)
    (maximal : ∀ c ∈ s.head?, Text.isWordChar c = false) (htoken : RunSpells run token) :
    Passed (run ++ s) (run ++ front) rest (token :: ts) where
  whole := by rw [h.whole, List.append_assoc]
  apart := by
    intro d hd hword
    cases front with
    | nil =>
      rw [h.whole] at maximal
      exact maximal
    | cons first front =>
      rw [List.getLast?_append, List.getLast?_cons] at hd
      exact h.apart d (by rwa [List.getLast?_cons]) hword
  spells := by
    refine .run inside ?_ htoken h.spells
    intro c hc
    apply maximal c
    rw [h.whole, List.head?_append, Option.mem_def.mp hc]
    rfl

end Passed

/-- The last character of text is the last one of its tail, if that has one. -/
theorem forall_getLast?_of_append {P : Char → Prop} (front : List Char) {tail : List Char}
    (h : ∀ c ∈ (front ++ tail).getLast?, P c) : ∀ c ∈ tail.getLast?, P c := by
  intro c hc
  apply h c
  rw [List.getLast?_append, Option.mem_def.mp hc]
  rfl

/-- The scan goes through the text in front and places its tokens. -/
theorem scan_of_passed {s front rest : List Char} {ts : List Token} (h : Passed s front rest ts)
    (position : Nat) :
    ∃ placed, placed.map Placed.token = ts ∧
      scan position none s =
        scan (position + front.length) none rest >>= fun later => .ok (placed ++ later) := by
  obtain ⟨rfl, apart, spells⟩ := h
  -- The three sorts of characters that are tokens of their own.
  have symbol {c : Char} {token : Token} {tail : List Char} {ts : List Token}
      (hc : symbolToken? c = some token) (position : Nat)
      (ih : ∃ placed, placed.map Placed.token = ts ∧ scan (position + 1) none (tail ++ rest) =
        scan (position + 1 + tail.length) none rest >>= fun later => .ok (placed ++ later)) :
      ∃ placed, placed.map Placed.token = token :: ts ∧ scan position none (c :: (tail ++ rest)) =
        scan (position + (c :: tail).length) none rest >>= fun later =>
          .ok (placed ++ later) := by
    obtain ⟨placed, rfl, hscan⟩ := ih
    refine ⟨⟨position, token⟩ :: placed, rfl, ?_⟩
    rw [scan_symbol position hc, hscan, List.length_cons, Nat.add_right_comm, Nat.add_assoc]
    cases scan (position + (tail.length + 1)) none rest <;> rfl
  induction spells generalizing position with
  | nil =>
    refine ⟨[], rfl, ?_⟩
    show scan position none rest = scan position none rest >>= fun later => .ok later
    cases scan position none rest <;> rfl
  | @blank c tail ts hblank later ih =>
    obtain ⟨placed, htokens, hscan⟩ := ih (position + 1) (forall_getLast?_of_append [_] apart)
    refine ⟨placed, htokens, ?_⟩
    rw [List.cons_append, scan_blank position hblank, hscan, List.length_cons, Nat.add_right_comm,
      Nat.add_assoc]
  | operator op later ih =>
    exact symbol (symbolToken?_eq_some.mpr (.inl ⟨op, rfl, rfl⟩)) position
      (ih (position + 1) (forall_getLast?_of_append [_] apart))
  | leftParen later ih =>
    exact symbol rfl position (ih (position + 1) (forall_getLast?_of_append [_] apart))
  | rightParen later ih =>
    exact symbol rfl position (ih (position + 1) (forall_getLast?_of_append [_] apart))
  | @run run tail token ts inside maximal htoken later ih =>
    -- The run ends at the end of the text in front, or before that.
    have hmaximal : ∀ c ∈ (tail ++ rest).head?, Text.isWordChar c = false := by
      cases tail with
      | nil =>
        have hlast := List.getLast_mem htoken.ne_nil
        refine apart (run.getLast htoken.ne_nil) ?_ (inside _ hlast)
        rw [List.append_nil, List.getLast?_eq_some_getLast htoken.ne_nil]
        rfl
      | cons c tail => exact maximal
    obtain ⟨placed, rfl, hscan⟩ := ih (position + run.length) (forall_getLast?_of_append run apart)
    refine ⟨⟨position, token⟩ :: placed, rfl, ?_⟩
    rw [List.append_assoc, scan_run_append position htoken.ne_nil inside hmaximal, hscan,
      readRun_of_spells position inside htoken, ok_bind, List.length_append,
      Nat.add_assoc]
    cases scan (position + (run.length + tail.length)) none rest <;> rfl

/-- Text that spells tokens can be cut in front of each of them. -/
theorem Spells.exists_passed {s : List Char} {before after : List Token} {token : Token}
    (h : Spells s (before ++ token :: after)) :
    ∃ front rest, Passed s front rest before ∧ Spells rest (token :: after) ∧
      ∀ c ∈ rest.head?, Text.isBlank c = false := by
  -- The token may be the first one, which is no blank, or one of those behind.
  have symbol {c : Char} {first : Token} {s : List Char} {ts : List Token}
      (hc : symbolToken? c = some first) (hs : Spells s ts)
      (ih : ∀ {before}, before ++ token :: after = ts → ∃ front rest, Passed s front rest before ∧
        Spells rest (token :: after) ∧ ∀ c ∈ rest.head?, Text.isBlank c = false)
      {before : List Token} (hts : before ++ token :: after = first :: ts) :
      ∃ front rest, Passed (c :: s) front rest before ∧ Spells rest (token :: after) ∧
        ∀ d ∈ rest.head?, Text.isBlank d = false := by
    obtain ⟨hword, hblank⟩ := not_word_of_symbolToken? hc
    cases before with
    | nil =>
      cases hts
      exact ⟨[], c :: s, .nothing _, spells_symbol hc hs, fun d hd => by cases hd; exact hblank⟩
    | cons other before =>
      obtain ⟨rfl, hlater⟩ := List.cons.inj hts
      obtain ⟨front, rest, hpassed, hrest⟩ := ih hlater
      exact ⟨c :: front, rest, hpassed.cons hword (spells_symbol hc hpassed.spells), hrest⟩
  generalize hts : before ++ token :: after = ts at h
  induction h generalizing before with
  | nil => cases before <;> cases hts
  | @blank c s ts hblank hs ih =>
    obtain ⟨front, rest, hpassed, hrest⟩ := ih hts
    exact ⟨c :: front, rest, hpassed.cons (Text.isWordChar_of_isBlank hblank)
      (.blank hblank hpassed.spells), hrest⟩
  | operator op hs ih => exact symbol (symbolToken?_eq_some.mpr (.inl ⟨op, rfl, rfl⟩)) hs ih hts
  | leftParen hs ih => exact symbol rfl hs ih hts
  | rightParen hs ih => exact symbol rfl hs ih hts
  | @run run s first ts inside maximal htoken hs ih =>
    cases before with
    | nil =>
      cases hts
      refine ⟨[], run ++ s, .nothing _, .run inside maximal htoken hs, ?_⟩
      intro c hc
      cases run with
      | nil => exact absurd rfl htoken.ne_nil
      | cons d run =>
        cases hc
        have hword := inside c (List.mem_cons_self ..)
        cases hblank : Text.isBlank c with
        | false => rfl
        | true =>
          rw [Text.isWordChar_of_isBlank hblank] at hword
          cases hword
    | cons other before =>
      obtain ⟨rfl, hlater⟩ := List.cons.inj hts
      obtain ⟨front, rest, hpassed, hrest⟩ := ih hlater
      exact ⟨run ++ front, rest, hpassed.run inside maximal htoken, hrest⟩

/-! ## Where a token stands -/

/-- Every token stands in text at its position: behind the tokens before it, where a blank is no
part of it, and in front of the tokens after it. -/
structure Stand (s : List Char) (ts : List Placed) : Prop where
  spells : Spells s (ts.map Placed.token)
  place : ∀ before t after, ts = before ++ t :: after →
    ∃ front rest, Passed s front rest (before.map Placed.token) ∧
      Spells rest (t.token :: after.map Placed.token) ∧
      (∀ c ∈ rest.head?, Text.isBlank c = false) ∧ t.position = front.length

/-- The first token stands where the scan starts, if no blank is in front of it. -/
theorem position_of_scan {position : Nat} {rest : List Char} {t : Placed} {later : List Placed}
    (h : scan position none rest = .ok (t :: later))
    (hhead : ∀ c ∈ rest.head?, Text.isBlank c = false) : t.position = position := by
  cases pieces rest with
  | nil => cases h
  | @blank c s hblank hs =>
    rw [hhead c rfl] at hblank
    cases hblank
  | symbol hsymbol hs =>
    rw [scan_symbol position hsymbol] at h
    obtain ⟨placed, -, hplaced⟩ := bind_eq_ok.mp h
    cases hplaced
    rfl
  | @run run s nonempty inside maximal hs =>
    rw [scan_run_append position nonempty inside maximal] at h
    obtain ⟨first, hfirst, h⟩ := bind_eq_ok.mp h
    obtain ⟨placed, -, hplaced⟩ := bind_eq_ok.mp h
    cases hplaced
    cases run with
    | nil => exact absurd rfl nonempty
    | cons c run =>
      obtain ⟨token, -, rfl⟩ := (readRun_eq_ok inside).mp hfirst
      rfl
  | stray hword hblank hsymbol =>
    rw [scan_stray position hword hblank hsymbol] at h
    cases h

/-- The scan places a token where the text before it ends. -/
theorem scan_of_place {s front rest : List Char} {before after : List Token} {token : Token}
    (hpassed : Passed s front rest before) (hrest : Spells rest (token :: after))
    (hhead : ∀ c ∈ rest.head?, Text.isBlank c = false) :
    ∃ placed later, placed.map Placed.token = before ∧
      scan 0 none s = .ok (placed ++ ⟨front.length, token⟩ :: later) := by
  obtain ⟨placed, hplaced, hscan⟩ := scan_of_passed hpassed 0
  rw [Nat.zero_add] at hscan
  obtain ⟨found, hfound, htokens⟩ := scan_of_spells hrest front.length
  obtain ⟨⟨position, first⟩, later, rfl, rfl, -⟩ := List.map_eq_cons_iff.mp htokens
  obtain rfl : position = front.length := position_of_scan hfound hhead
  rw [hfound, ok_bind] at hscan
  exact ⟨placed, later, hplaced, hscan⟩

/-- The scan succeeds exactly if every token stands at its position. -/
theorem scan_eq_ok_iff {s : List Char} {ts : List Placed} :
    scan 0 none s = .ok ts ↔ Stand s ts := by
  constructor
  · intro h
    refine ⟨spells_of_scan h, fun before t after hts => ?_⟩
    have hspells := spells_of_scan h
    rw [hts, List.map_append, List.map_cons] at hspells
    obtain ⟨front, rest, hpassed, hrest, hhead⟩ := hspells.exists_passed
    refine ⟨front, rest, hpassed, hrest, hhead, ?_⟩
    obtain ⟨placed, later, hplaced, hscan⟩ := scan_of_place hpassed hrest hhead
    have hsame : before ++ t :: after = placed ++ ⟨front.length, t.token⟩ :: later := by
      rw [← hts]
      exact Except.ok.inj (h.symm.trans hscan)
    have hlength : before.length = placed.length := by
      rw [← List.length_map Placed.token, ← hplaced, List.length_map]
    obtain ⟨-, hrest⟩ := List.append_inj hsame hlength
    rw [(List.cons.inj hrest).1]
  · intro h
    obtain ⟨found, hfound, htokens⟩ := scan_of_spells h.spells 0
    -- Token for token, what is found is what stands there.
    have hsame : ∀ before t after, ts = before ++ t :: after → found[before.length]? = some t := by
      intro before t after hts
      obtain ⟨front, rest, hpassed, hrest, hhead, hposition⟩ := h.place before t after hts
      obtain ⟨placed, later, hplaced, hscan⟩ := scan_of_place hpassed hrest hhead
      have hlength : placed.length = before.length := by
        rw [← List.length_map Placed.token, hplaced, List.length_map]
      rw [Except.ok.inj (hfound.symm.trans hscan), ← hlength,
        List.getElem?_append_right (Nat.le_refl _), Nat.sub_self, List.getElem?_cons_zero,
        ← hposition]
    have hlength : found.length = ts.length := by
      rw [← List.length_map Placed.token, htokens, List.length_map]
    rw [hfound]
    congr 1
    apply List.ext_getElem hlength
    intro i hi hi'
    have hsplit : ts = ts.take i ++ ts[i] :: ts.drop (i + 1) := by simp
    have hfound := hsame _ _ _ hsplit
    rw [List.length_take_of_le (Nat.le_of_lt hi'), List.getElem?_eq_getElem hi] at hfound
    exact Option.some.inj hfound

/-! ## Where the scan fails -/

/-- Text that starts with what is no token, and the fault that it is if it stands at a position. -/
inductive Stuck : List Char → (Nat → SourceError) → Prop where
  | stray {c : Char} {back : List Char} (word : Text.isWordChar c = false)
    (blank : Text.isBlank c = false) (symbol : c ∉ ['+', '-', '*', '/', '%', '(', ')']) :
    Stuck (c :: back) (.strayCharacter c)
  | badInteger {run back : List Char} (nonempty : run ≠ [])
    (inside : ∀ c ∈ run, Text.isWordChar c = true)
    (maximal : ∀ c ∈ back.head?, Text.isWordChar c = false) (none : ∀ token, ¬RunSpells run token) :
    Stuck (run ++ back) (.badInteger (String.ofList (run.filter (· != '_'))))

theorem symbolToken?_eq_none {c : Char} :
    symbolToken? c = none ↔ c ∉ ['+', '-', '*', '/', '%', '(', ')'] := by
  constructor
  · intro h hc
    simp only [List.mem_cons, List.not_mem_nil, or_false] at hc
    rcases hc with rfl | rfl | rfl | rfl | rfl | rfl | rfl <;> cases h
  · intro h
    cases hsymbol : symbolToken? c with
    | none => rfl
    | some token =>
      rcases symbolToken?_eq_some.mp hsymbol with ⟨op, rfl, -⟩ | ⟨rfl, -⟩ | ⟨rfl, -⟩
      · cases op <;> exact absurd (by decide) h
      · exact absurd (by decide) h
      · exact absurd (by decide) h

theorem readRun_of_not_spells {position : Nat} {run : List Char} (nonempty : run ≠ [])
    (inside : ∀ c ∈ run, Text.isWordChar c = true) (h : ∀ token, ¬RunSpells run token) :
    readRun position run =
      .error (.badInteger (String.ofList (run.filter (· != '_'))) position) := by
  cases run with
  | nil => exact absurd rfl nonempty
  | cons c rest =>
    cases hdigit : c.isDigit with
    | false => exact absurd ((runSpells_of_not_isDigit hdigit inside).mpr rfl) (h _)
    | true =>
      have hnone : readInteger ((c :: rest).filter (· != '_')) = none := by
        cases hread : readInteger ((c :: rest).filter (· != '_')) with
        | none => rfl
        | some value =>
          exact absurd ((runSpells_of_isDigit hdigit).mpr ⟨value, hread, rfl⟩) (h _)
      rw [readRun, List.head?_cons, Option.any_some, hdigit, if_pos rfl]
      dsimp only
      rw [hnone]

theorem scan_of_stuck {rest : List Char} {fault : Nat → SourceError} (h : Stuck rest fault)
    (position : Nat) : scan position none rest = .error (fault position) := by
  cases h with
  | stray word blank symbol =>
    exact scan_stray position word blank (symbolToken?_eq_none.mpr symbol) _
  | @badInteger run back nonempty inside maximal hnone =>
    rw [scan_run_append position nonempty inside maximal,
      readRun_of_not_spells nonempty inside hnone]
    rfl

/-- Text goes on with tokens up to its end or to what is no token. -/
theorem exists_furthest (s : List Char) : ∃ front rest ts, Passed s front rest ts ∧
    (rest = [] ∨ ∃ fault, Stuck rest fault) := by
  induction pieces s with
  | nil => exact ⟨[], [], [], .nothing _, .inl rfl⟩
  | @blank c s hblank later ih =>
    obtain ⟨front, rest, ts, hpassed, hrest⟩ := ih
    exact ⟨c :: front, rest, ts, hpassed.cons (Text.isWordChar_of_isBlank hblank)
      (.blank hblank hpassed.spells), hrest⟩
  | @symbol c s token hsymbol later ih =>
    obtain ⟨front, rest, ts, hpassed, hrest⟩ := ih
    exact ⟨c :: front, rest, token :: ts, hpassed.cons (not_word_of_symbolToken? hsymbol).1
      (spells_symbol hsymbol hpassed.spells), hrest⟩
  | @run run s nonempty inside maximal later ih =>
    by_cases htoken : ∃ token, RunSpells run token
    · obtain ⟨token, htoken⟩ := htoken
      obtain ⟨front, rest, ts, hpassed, hrest⟩ := ih
      exact ⟨run ++ front, rest, token :: ts, hpassed.run inside maximal htoken, hrest⟩
    · exact ⟨[], run ++ s, [], .nothing _, .inr ⟨_, .badInteger nonempty inside maximal
        fun token h => htoken ⟨token, h⟩⟩⟩
  | @stray c s hword hblank hsymbol =>
    exact ⟨[], c :: s, [], .nothing _,
      .inr ⟨_, .stray hword hblank (symbolToken?_eq_none.mp hsymbol)⟩⟩

/-- The scan fails exactly where a piece is no token, behind tokens. -/
theorem scan_eq_error_iff {s : List Char} {e : SourceError} :
    scan 0 none s = .error e ↔ ∃ front rest ts fault, Passed s front rest ts ∧ Stuck rest fault ∧
      e = fault front.length := by
  have fails {front rest : List Char} {ts : List Token} {fault : Nat → SourceError}
      (hpassed : Passed s front rest ts) (hstuck : Stuck rest fault) :
      scan 0 none s = .error (fault front.length) := by
    obtain ⟨placed, -, hscan⟩ := scan_of_passed hpassed 0
    rw [hscan, scan_of_stuck hstuck, Nat.zero_add]
    rfl
  constructor
  · intro h
    obtain ⟨front, rest, ts, hpassed, rfl | ⟨fault, hstuck⟩⟩ := exists_furthest s
    · obtain ⟨placed, -, hscan⟩ := scan_of_passed hpassed 0
      rw [h] at hscan
      cases hscan
    · have hfails := h.symm.trans (fails hpassed hstuck)
      exact ⟨front, rest, ts, fault, hpassed, hstuck, Except.error.inj hfails⟩
  · intro ⟨front, rest, ts, fault, hpassed, hstuck, he⟩
    rw [he]
    exact fails hpassed hstuck

end WireCodec.Length
