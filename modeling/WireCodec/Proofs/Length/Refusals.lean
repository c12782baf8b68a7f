import WireCodec.Proofs.Length.Parsing

/-!
# Where the reader stops

The reader stops at the first token with which what was read is no longer the start of an
expression.  Between two tokens it is in a state that the tokens before have brought about; that a
state is reached at all says that the tokens can be completed, and what the state holds says how.
-/

namespace WireCodec.Length

/-! ## What tokens can be completed to -/

/-- Tokens that make up an expression. -/
def Expression (ts : List Token) : Prop := ∃ d : Derivation .expr, d.tokens = ts

/-- Tokens that an expression can start with. -/
def Viable (ts : List Token) : Prop := ∃ us, Expression (ts ++ us)

/-- Tokens behind which an operand comes next: a parenthesis may be opened there. -/
def WantsOperand (ts : List Token) : Prop := Viable (ts ++ [.leftParen])

/-! ## The states of the reader -/

/-- What the reader has in hand between two tokens. -/
structure ReadState where
  levels : List Level
  pending : Pending
  operand : Option LengthExpr

namespace ReadState

def start : ReadState := ⟨[], .none, none⟩

/-- The state behind one more token. -/
def next (source : String) (st : ReadState) (t : Placed) : Except SourceError ReadState :=
  match st.operand with
  | none =>
    match t.token with
    | .integer value => .ok { st with operand := some (.const value) }
    | .name text => .ok { st with operand := some (.field text) }
    | .leftParen => .ok ⟨⟨t.position, st.pending⟩ :: st.levels, .none, none⟩
    | token => .error (.unexpected token t.position)
  | some x =>
    match t.token, st.levels with
    | .operator op, levels => .ok ⟨levels, st.pending.push x op, none⟩
    | .rightParen, level :: outer => .ok ⟨outer, level.pending, some (st.pending.whole x)⟩
    | token, [] => .error (.trailing token t.position source)
    | _, level :: _ => .error (.unclosed level.position)

/-- What the reader gives when the tokens end. -/
def result (st : ReadState) : Except SourceError LengthExpr :=
  match st.operand, st.levels with
  | none, _ => .error .endsEarly
  | some x, [] => .ok (st.pending.whole x)
  | some _, level :: _ => .error (.unclosed level.position)

/-- The state behind tokens. -/
def reach (source : String) (st : ReadState) (ts : List Placed) : Except SourceError ReadState :=
  ts.foldlM (next source) st

end ReadState

open ReadState

variable {source : String}

theorem reach_cons (st : ReadState) (t : Placed) (ts : List Placed) :
    st.reach source (t :: ts) = st.next source t >>= fun st' => st'.reach source ts :=
  List.foldlM_cons

theorem reach_append (st : ReadState) (ts us : List Placed) :
    st.reach source (ts ++ us) = st.reach source ts >>= fun st' => st'.reach source us :=
  List.foldlM_append

theorem reach_snoc (st : ReadState) (ts : List Placed) (t : Placed) :
    st.reach source (ts ++ [t]) = st.reach source ts >>= fun st' => st'.next source t := by
  rw [reach_append]
  congr 1
  funext st'
  show (st'.next source t >>= fun st => .ok st) = _
  cases st'.next source t <;> rfl

variable (source)

/-- The reader goes from state to state. -/
theorem readTokens_eq (st : ReadState) (ts : List Placed) :
    readTokens source st.levels st.pending st.operand ts = st.reach source ts >>= result := by
  induction ts generalizing st with
  | nil =>
    obtain ⟨levels, pending, _ | x⟩ := st
    · rfl
    · cases levels <;> rfl
  | cons t rest ih =>
    obtain ⟨position, token⟩ := t
    obtain ⟨levels, pending, operand⟩ := st
    rw [reach_cons]
    cases operand with
    | none =>
      cases token with
      | integer value => exact ih ⟨levels, pending, some (.const value)⟩
      | name text => exact ih ⟨levels, pending, some (.field text)⟩
      | operator op => rfl
      | leftParen => exact ih ⟨⟨position, pending⟩ :: levels, .none, none⟩
      | rightParen => rfl
    | some x =>
      cases token with
      | operator op => exact ih ⟨levels, pending.push x op, none⟩
      | rightParen =>
        cases levels with
        | nil => rfl
        | cons level outer => exact ih ⟨outer, level.pending, some (pending.whole x)⟩
      | _ => cases levels <;> rfl

/-- Tokens are an expression when the reader comes to a result behind them. -/
theorem expression_iff {ts : List Placed} :
    Expression (ts.map Placed.token) ↔ ∃ e, start.reach source ts >>= result = .ok e := by
  have hread := readTokens_eq source start ts
  constructor
  · intro ⟨d, hd⟩
    exact ⟨d.tree, hread ▸ readTokens_eq_ok.mpr ⟨d, hd, rfl⟩⟩
  · intro ⟨e, he⟩
    obtain ⟨d, hd, -⟩ := readTokens_eq_ok.mp (hread.trans he)
    exact ⟨d, hd⟩

/-- Every state can be completed: with an operand, if one is wanted, and the other halves of the
parentheses. -/
theorem exists_completion (st : ReadState) :
    ∃ us e, st.reach source us >>= result = .ok e := by
  have closes (levels : List Level) (pending : Pending) (x : LengthExpr) :
      ∃ us e, reach source ⟨levels, pending, some x⟩ us >>= result = .ok e := by
    induction levels generalizing pending x with
    | nil => exact ⟨[], pending.whole x, rfl⟩
    | cons level outer ih =>
      obtain ⟨us, e, h⟩ := ih level.pending (pending.whole x)
      exact ⟨⟨0, .rightParen⟩ :: us, e, h⟩
  obtain ⟨levels, pending, _ | x⟩ := st
  · obtain ⟨us, e, h⟩ := closes levels pending (.const 0)
    exact ⟨⟨0, .integer 0⟩ :: us, e, h⟩
  · exact closes levels pending x

/-- Tokens can be completed when the reader takes them. -/
theorem viable_iff {ts : List Placed} :
    Viable (ts.map Placed.token) ↔ ∃ st, start.reach source ts = .ok st := by
  constructor
  · intro ⟨us, hus⟩
    have hplaced : us = (us.map (Placed.mk 0)).map Placed.token := by
      rw [List.map_map]
      exact (List.map_id us).symm
    rw [hplaced, ← List.map_append, expression_iff source, reach_append] at hus
    obtain ⟨e, he⟩ := hus
    obtain ⟨after, hafter, -⟩ := bind_eq_ok.mp he
    obtain ⟨st, hst, -⟩ := bind_eq_ok.mp hafter
    exact ⟨st, hst⟩
  · intro ⟨st, hst⟩
    obtain ⟨us, e, he⟩ := exists_completion source st
    refine ⟨us.map Placed.token, ?_⟩
    rw [← List.map_append, expression_iff source, reach_append, hst]
    exact ⟨e, he⟩

/-- An expression ends behind an operand, with no parenthesis open. -/
theorem result_eq_ok {st : ReadState} :
    (∃ e, st.result = .ok e) ↔ st.levels = [] ∧ ∃ x, st.operand = some x := by
  obtain ⟨levels, pending, _ | x⟩ := st
  · exact ⟨fun ⟨e, h⟩ => (by cases h), fun ⟨_, x, h⟩ => (by cases h)⟩
  · cases levels with
    | nil => exact ⟨fun _ => ⟨rfl, x, rfl⟩, fun _ => ⟨_, rfl⟩⟩
    | cons level outer => exact ⟨fun ⟨e, h⟩ => (by cases h), fun ⟨h, _⟩ => (by cases h)⟩

/-- An expression leaves an operand and no open parenthesis. -/
theorem expression_iff_reach {ts : List Placed} :
    Expression (ts.map Placed.token) ↔
      ∃ pending x, start.reach source ts = .ok ⟨[], pending, some x⟩ := by
  rw [expression_iff source]
  constructor
  · intro ⟨e, h⟩
    obtain ⟨⟨levels, pending, operand⟩, hst, hresult⟩ := bind_eq_ok.mp h
    obtain ⟨hlevels, x, hoperand⟩ := result_eq_ok.mp ⟨e, hresult⟩
    cases hlevels
    cases hoperand
    exact ⟨pending, x, hst⟩
  · intro ⟨pending, x, hst⟩
    exact ⟨pending.whole x, by rw [hst]; rfl⟩

/-- An operand comes next where the reader has none. -/
theorem wantsOperand_iff {ts : List Placed} :
    WantsOperand (ts.map Placed.token) ↔
      ∃ levels pending, start.reach source ts = .ok ⟨levels, pending, none⟩ := by
  have hsnoc : ts.map Placed.token ++ [.leftParen] =
      (ts ++ [Placed.mk 0 .leftParen]).map Placed.token := by
    rw [List.map_append, List.map_singleton]
  rw [WantsOperand, hsnoc, viable_iff source, reach_snoc]
  constructor
  · intro ⟨st', h⟩
    obtain ⟨⟨levels, pending, operand⟩, hst, hnext⟩ := bind_eq_ok.mp h
    cases operand with
    | none => exact ⟨levels, pending, hst⟩
    | some x => cases levels <;> cases hnext
  · intro ⟨levels, pending, hst⟩
    exact ⟨_, by rw [hst]; rfl⟩

/-! ## The innermost parenthesis -/

variable {source}

/-- Levels further out make no difference to a token that the reader takes without them. -/
theorem next_within {st st' : ReadState} {t : Placed} (h : st.next source t = .ok st')
    (outer : List Level) :
    next source ⟨st.levels ++ outer, st.pending, st.operand⟩ t =
      .ok ⟨st'.levels ++ outer, st'.pending, st'.operand⟩ := by
  obtain ⟨levels, pending, operand⟩ := st
  obtain ⟨position, token⟩ := t
  cases operand with
  | none => cases token <;> cases h <;> rfl
  | some x =>
    cases token with
    | operator op =>
      cases h
      rfl
    | rightParen =>
      cases levels with
      | nil => cases h
      | cons level levels =>
        cases h
        rfl
    | _ => cases levels <;> cases h

/-- Parentheses around tokens make no difference to how these are read. -/
theorem reach_within {levels levels' : List Level} {pending pending' : Pending}
    {operand operand' : Option LengthExpr} {ts : List Placed}
    (h : reach source ⟨levels, pending, operand⟩ ts = .ok ⟨levels', pending', operand'⟩)
    (outer : List Level) :
    reach source ⟨levels ++ outer, pending, operand⟩ ts =
      .ok ⟨levels' ++ outer, pending', operand'⟩ := by
  induction ts generalizing levels pending operand with
  | nil =>
    cases h
    rfl
  | cons t rest ih =>
    rw [reach_cons] at h
    obtain ⟨⟨levels, pending, operand⟩, hnext, hrest⟩ := bind_eq_ok.mp h
    rw [reach_cons, next_within hnext outer]
    exact ih hrest

/-- An expression in parentheses is an operand. -/
theorem reach_parens {inner : List Placed} {pending pending' : Pending} {x : LengthExpr}
    (h : start.reach source inner = .ok ⟨[], pending', some x⟩) (levels : List Level)
    (opened closed : Nat) :
    reach source ⟨levels, pending, none⟩
        (⟨opened, .leftParen⟩ :: (inner ++ [⟨closed, .rightParen⟩])) =
      .ok ⟨levels, pending, some (pending'.whole x)⟩ := by
  have hinner : reach source ⟨⟨opened, pending⟩ :: levels, .none, none⟩ inner =
      .ok ⟨⟨opened, pending⟩ :: levels, pending', some x⟩ :=
    reach_within h (⟨opened, pending⟩ :: levels)
  rw [reach_cons]
  show reach source ⟨⟨opened, pending⟩ :: levels, .none, none⟩ (inner ++ [_]) = _
  rw [reach_snoc, hinner]
  rfl

/-- The innermost open parenthesis: the tokens before it want an operand, and those behind it are
read as if nothing stood before them. -/
theorem exists_innermost {ts : List Placed} {level : Level} {outer : List Level}
    {pending : Pending} {operand : Option LengthExpr}
    (h : start.reach source ts = .ok ⟨level :: outer, pending, operand⟩) :
    ∃ before inner, ts = before ++ ⟨level.position, .leftParen⟩ :: inner ∧
      start.reach source before = .ok ⟨outer, level.pending, none⟩ ∧
      start.reach source inner = .ok ⟨[], pending, operand⟩ := by
  induction hn : ts.length using Nat.strongRecOn generalizing ts level outer pending operand with
  | _ n ih =>
    subst hn
    rcases List.eq_nil_or_concat ts with rfl | ⟨front, t, hts⟩
    · cases h
    rw [List.concat_eq_append] at hts
    subst hts
    have hshorter : front.length < (front ++ [t]).length := by simp
    rw [reach_snoc] at h
    obtain ⟨⟨levels, pending', operand'⟩, hfront, hnext⟩ := bind_eq_ok.mp h
    -- A token that leaves the levels alone belongs to what is inside the innermost one.
    have extend (hlevels : levels = level :: outer)
        (hlocal : next source ⟨[], pending', operand'⟩ t = .ok ⟨[], pending, operand⟩) :
        ∃ before inner, front ++ [t] = before ++ ⟨level.position, .leftParen⟩ :: inner ∧
          start.reach source before = .ok ⟨outer, level.pending, none⟩ ∧
          start.reach source inner = .ok ⟨[], pending, operand⟩ := by
      rw [hlevels] at hfront
      obtain ⟨before, inner, rfl, hbefore, hinner⟩ := ih _ hshorter hfront rfl
      refine ⟨before, inner ++ [t], by simp, hbefore, ?_⟩
      rw [reach_snoc, hinner, ok_bind, hlocal]
    obtain ⟨position, token⟩ := t
    cases operand' with
    | none =>
      cases token with
      | integer value =>
        cases hnext
        exact extend rfl rfl
      | name text =>
        cases hnext
        exact extend rfl rfl
      | leftParen =>
        cases hnext
        exact ⟨front, [], rfl, hfront, rfl⟩
      | operator op => cases hnext
      | rightParen => cases hnext
    | some x =>
      cases token with
      | operator op =>
        cases hnext
        exact extend rfl rfl
      | rightParen =>
        cases levels with
        | nil => cases hnext
        | cons closed levels =>
          cases hnext
          -- The parenthesis that is closed stood inside the one that is innermost now.
          obtain ⟨before', inner', rfl, hbefore', hinner'⟩ := ih _ hshorter hfront rfl
          have hshorter' : before'.length <
              (before' ++ ⟨closed.position, .leftParen⟩ :: inner' ++
                [Placed.mk position .rightParen]).length := by
            simp
          obtain ⟨before, inner, rfl, hbefore, hinner⟩ := ih _ hshorter' hbefore' rfl
          refine ⟨before, inner ++ ⟨closed.position, .leftParen⟩ ::
            (inner' ++ [⟨position, .rightParen⟩]), by simp, hbefore, ?_⟩
          rw [reach_append, hinner]
          exact reach_parens hinner' [] closed.position position
      | _ => cases levels <;> cases hnext

/-! ## Refused tokens -/

/-- Why tokens are no expression, and which of them is to blame: the first one with which they
cannot be completed, the parenthesis that should have been closed before it, or the end. -/
inductive Refused (source : String) (ts : List Placed) : SourceError → Prop where
  | unexpected {before after : List Placed} {position : Nat} {token : Token}
    (split : ts = before ++ ⟨position, token⟩ :: after)
    (wanted : WantsOperand (before.map Placed.token))
    (refused : ¬Viable (before.map Placed.token ++ [token])) :
    Refused source ts (.unexpected token position)
  | trailing {before after : List Placed} {position : Nat} {token : Token}
    (split : ts = before ++ ⟨position, token⟩ :: after)
    (complete : Expression (before.map Placed.token))
    (refused : ¬Viable (before.map Placed.token ++ [token])) :
    Refused source ts (.trailing token position source)
  | unclosed {before inner after : List Placed} {position : Nat}
    (split : ts = before ++ ⟨position, .leftParen⟩ :: (inner ++ after))
    (wanted : WantsOperand (before.map Placed.token))
    (complete : Expression (inner.map Placed.token))
    (refused : ∀ t ∈ after.head?,
      ¬Viable ((before ++ ⟨position, .leftParen⟩ :: (inner ++ [t])).map Placed.token)) :
    Refused source ts (.unclosed position)
  | endsEarly (wanted : WantsOperand (ts.map Placed.token)) : Refused source ts .endsEarly

/-! What the reader has in hand decides how it refuses a token. -/

section

variable {levels : List Level} {pending : Pending} {x : LengthExpr} {t : Placed} {e : SourceError}

/-- Where an operand is wanted, the token that is none is to blame. -/
theorem unexpected_of_next (h : next source ⟨levels, pending, none⟩ t = .error e) :
    e = .unexpected t.token t.position := by
  obtain ⟨position, token⟩ := t
  cases token <;> cases h <;> rfl

/-- Behind an operand on the outside, a token that does not go on is left over. -/
theorem trailing_of_next (h : next source ⟨[], pending, some x⟩ t = .error e) :
    e = .trailing t.token t.position source := by
  obtain ⟨position, token⟩ := t
  cases token <;> cases h <;> rfl

/-- Behind an operand in parentheses, the parenthesis should have been closed. -/
theorem unclosed_of_next {level : Level}
    (h : next source ⟨level :: levels, pending, some x⟩ t = .error e) :
    e = .unclosed level.position := by
  obtain ⟨position, token⟩ := t
  cases token <;> cases h <;> rfl

end

/-- A token is refused in a state where the tokens before cannot be completed with it. -/
theorem next_eq_error {st : ReadState} {before : List Placed} {t : Placed} {e : SourceError}
    (hbefore : start.reach source before = .ok st) (h : st.next source t = .error e) :
    ¬Viable ((before ++ [t]).map Placed.token) := by
  rw [viable_iff source, reach_snoc, hbefore, ok_bind, h]
  exact fun ⟨st', h⟩ => by cases h

/-- A reading that fails does so at one token, behind others that it takes. -/
theorem exists_stop {st : ReadState} {ts : List Placed} {e : SourceError}
    (h : st.reach source ts = .error e) :
    ∃ before t after st', ts = before ++ t :: after ∧ st.reach source before = .ok st' ∧
      st'.next source t = .error e := by
  induction ts generalizing st with
  | nil => cases h
  | cons t rest ih =>
    rw [reach_cons] at h
    rcases bind_eq_error.mp h with hnext | ⟨st', hnext, hrest⟩
    · exact ⟨[], t, rest, st, rfl, rfl, hnext⟩
    · obtain ⟨before, t', after, st'', rfl, hbefore, hstop⟩ := ih hrest
      refine ⟨t :: before, t', after, st'', rfl, ?_, hstop⟩
      rw [reach_cons, hnext]
      exact hbefore

/-- The reader stops where a token is refused, whatever comes behind. -/
theorem readTokens_of_stop {st : ReadState} {before after : List Placed} {t : Placed}
    {e : SourceError} (hbefore : start.reach source before = .ok st)
    (h : st.next source t = .error e) :
    readTokens source [] .none none (before ++ t :: after) = .error e := by
  have hread := readTokens_eq source start (before ++ t :: after)
  rw [reach_append, hbefore, ok_bind, reach_cons, h] at hread
  exact hread

/-- A token with which the tokens before cannot be completed is refused behind them. -/
theorem exists_error_of_not_viable {st : ReadState} {before : List Placed} {t : Placed}
    (hbefore : start.reach source before = .ok st)
    (h : ¬Viable (before.map Placed.token ++ [t.token])) : ∃ e, st.next source t = .error e := by
  have hsnoc : before.map Placed.token ++ [t.token] = (before ++ [t]).map Placed.token := by
    rw [List.map_append, List.map_singleton]
  rw [hsnoc, viable_iff source, reach_snoc, hbefore, ok_bind] at h
  cases hnext : st.next source t with
  | ok st' => exact absurd ⟨st', hnext⟩ h
  | error e => exact ⟨e, rfl⟩

/-- The reader tells why tokens are no expression. -/
theorem refused_of_readTokens {ts : List Placed} {e : SourceError}
    (h : readTokens source [] .none none ts = .error e) : Refused source ts e := by
  have hread := (readTokens_eq source start ts).symm.trans h
  rcases bind_eq_error.mp hread with hstop | ⟨⟨levels, pending, operand⟩, hst, hresult⟩
  · -- A token is refused.
    obtain ⟨before, t, after, ⟨levels, pending, operand⟩, rfl, hbefore, hnext⟩ := exists_stop hstop
    have hrefused := next_eq_error hbefore hnext
    rw [List.map_append, List.map_singleton] at hrefused
    cases operand with
    | none =>
      rw [unexpected_of_next hnext]
      exact .unexpected rfl ((wantsOperand_iff source).mpr ⟨levels, pending, hbefore⟩) hrefused
    | some x =>
      cases levels with
      | nil =>
        rw [trailing_of_next hnext]
        exact .trailing rfl ((expression_iff_reach source).mpr ⟨pending, x, hbefore⟩) hrefused
      | cons level outer =>
        rw [unclosed_of_next hnext]
        obtain ⟨before', inner, rfl, hbefore', hinner⟩ := exists_innermost hbefore
        have hsplit : before' ++ ⟨level.position, .leftParen⟩ :: inner ++ t :: after =
            before' ++ ⟨level.position, .leftParen⟩ :: (inner ++ t :: after) := by simp
        refine .unclosed hsplit
          ((wantsOperand_iff source).mpr ⟨outer, level.pending, hbefore'⟩)
          ((expression_iff_reach source).mpr ⟨pending, x, hinner⟩) ?_
        intro t' ht
        cases ht
        simpa using hrefused
  · -- All tokens are taken, but no expression is complete.
    cases operand with
    | none =>
      cases hresult
      exact .endsEarly ((wantsOperand_iff source).mpr ⟨levels, pending, hst⟩)
    | some x =>
      cases levels with
      | nil => cases hresult
      | cons level outer =>
        cases hresult
        obtain ⟨before, inner, rfl, hbefore, hinner⟩ := exists_innermost hst
        exact .unclosed (by rw [List.append_nil])
          ((wantsOperand_iff source).mpr ⟨outer, level.pending, hbefore⟩)
          ((expression_iff_reach source).mpr ⟨pending, x, hinner⟩) (fun t ht => by cases ht)

theorem readTokens_of_refused {ts : List Placed} {e : SourceError} (h : Refused source ts e) :
    readTokens source [] .none none ts = .error e := by
  cases h with
  | @unexpected before after position token split wanted refused =>
    subst split
    obtain ⟨levels, pending, hbefore⟩ := (wantsOperand_iff source).mp wanted
    obtain ⟨e, hnext⟩ := exists_error_of_not_viable (t := ⟨position, token⟩) hbefore refused
    rw [readTokens_of_stop hbefore hnext, unexpected_of_next hnext]
  | @trailing before after position token split complete refused =>
    subst split
    obtain ⟨pending, x, hbefore⟩ := (expression_iff_reach source).mp complete
    obtain ⟨e, hnext⟩ := exists_error_of_not_viable (t := ⟨position, token⟩) hbefore refused
    rw [readTokens_of_stop hbefore hnext, trailing_of_next hnext]
  | @unclosed before inner after position split wanted complete refused =>
    subst split
    obtain ⟨outer, pending, hbefore⟩ := (wantsOperand_iff source).mp wanted
    obtain ⟨pending', x, hinner⟩ := (expression_iff_reach source).mp complete
    -- The expression inside leaves the parenthesis open.
    have hopen : start.reach source (before ++ ⟨position, .leftParen⟩ :: inner) =
        .ok ⟨⟨position, pending⟩ :: outer, pending', some x⟩ := by
      rw [reach_append, hbefore]
      exact reach_within hinner (⟨position, pending⟩ :: outer)
    cases after with
    | nil =>
      have hread := readTokens_eq source start
        (before ++ ⟨position, .leftParen⟩ :: inner)
      rw [hopen] at hread
      rw [List.append_nil]
      exact hread
    | cons t after =>
      have hsplit : before ++ ⟨position, .leftParen⟩ :: (inner ++ t :: after) =
          (before ++ ⟨position, .leftParen⟩ :: inner) ++ t :: after := by simp
      have hsnoc : (before ++ Placed.mk position .leftParen :: (inner ++ [t])).map Placed.token =
          (before ++ ⟨position, .leftParen⟩ :: inner).map Placed.token ++ [t.token] := by simp
      obtain ⟨e, hnext⟩ := exists_error_of_not_viable hopen (hsnoc ▸ refused t rfl)
      rw [hsplit, readTokens_of_stop hopen hnext, unclosed_of_next hnext]
  | endsEarly wanted =>
    obtain ⟨levels, pending, hst⟩ := (wantsOperand_iff source).mp wanted
    have hread := readTokens_eq source start ts
    rw [hst] at hread
    exact hread

/-- The reader refuses tokens for the reason that there is, and for no other. -/
theorem readTokens_eq_error_iff {ts : List Placed} {e : SourceError} :
    readTokens source [] .none none ts = .error e ↔ Refused source ts e :=
  ⟨refused_of_readTokens, readTokens_of_refused⟩

end WireCodec.Length
