import WireCodec.Proofs.Length.Printing
import WireCodec.Proofs.Target.Expression

/-!
# Reading expressions piece by piece

Text that the reader takes for an expression can be built from the texts of its parts.  An
`Operand` is something that a call or a field may be attached to; `Binds` says how tightly the parts
of a text hold together at least.  Every form of expression has a lemma that makes its text out of
those of its operands, and `expression?_of_binds` is the way out.
-/

namespace WireCodec.Target

/-! ## Pieces of text -/

/-- No word goes on into the text, whatever comes behind it. -/
def Separates (s : String) : Prop := ∀ rest, Stops (s.toList ++ rest)

/-- The text is cut into the tokens, whatever comes behind it. -/
def Spells (s : String) (ts : List Token) : Prop :=
  ∀ rest, tokens (s.toList ++ rest) = ts ++ tokens rest

/-- Reading the text leads from one state to another, unless its last word goes on behind it. -/
def Leads (s : String) (st st' : State) : Prop :=
  ∀ rest, Stops rest → st.read (s.toList ++ rest) = st'.read rest

theorem separates_of_head {s : String} {c : Char} {rest : List Char} (hs : s.toList = c :: rest)
    (hc : isWordChar c = false) (hcolon : c ≠ ':') : Separates s := by
  intro more
  rw [hs, List.cons_append]
  exact stops_cons hc hcolon _

theorem separates_of_space {s : String} {rest : List Char} (hs : s.toList = ' ' :: rest) :
    Separates s := separates_of_head hs (by decide) (by decide)

theorem Separates.append {s : String} (h : Separates s) (s' : String) : Separates (s ++ s') := by
  intro rest
  rw [String.toList_append, List.append_assoc]
  exact h _

/-- A mark that belongs to no longer one is a token of its own. -/
theorem spells_mark {s : String} {c : Char} (hs : s.toList = [c]) (hc : isWordChar c = false)
    (hsingle : c ∉ [':', '-', '<', '>', '|', ' ']) : Spells s [.mark c] := by
  intro rest
  rw [hs, List.singleton_append, tokens_mark hc hsingle]
  rfl

/-- Readings are joined where no word goes on from one text into the next. -/
theorem Leads.append {s s' : String} {st st' st'' : State} (h : Leads s st st')
    (hs : Separates s') (h' : Leads s' st' st'') : Leads (s ++ s') st st'' := by
  intro rest hrest
  rw [String.toList_append, List.append_assoc, h _ (hs rest), h' rest hrest]

theorem leads_word {word : String} (h : IsWord word) {st st' : State}
    (hstep : step st (.word word) = some st') : Leads word st st' := by
  intro rest hrest
  rw [State.read, h.tokens hrest, List.foldlM_cons, hstep]
  rfl

section

variable {s : String} {ts : List Token} (h : Spells s ts) {st st' : State}
  (hsteps : ts.foldlM step st = some st')

include h hsteps

theorem Spells.read (rest : List Char) : st.read (s.toList ++ rest) = st'.read rest := by
  rw [State.read, h rest, List.foldlM_append, hsteps]
  rfl

theorem Spells.leads : Leads s st st' := fun rest _ => h.read hsteps rest

theorem Spells.leads_append {s' : String} {st'' : State} (h' : Leads s' st' st'') :
    Leads (s ++ s') st st'' := by
  intro rest hrest
  rw [String.toList_append, List.append_assoc, h.read hsteps, h' rest hrest]

end

/-! ## Settled states -/

/-- The level binds more tightly than the innermost frame. -/
def Steady (level : Nat) : List Frame → Prop
  | .binary op _ :: _ => op.level < level
  | .deref :: _ | .borrow :: _ => False
  | _ => True

theorem Steady.mono {k level : Nat} (hle : k ≤ level) {stack : List Frame} (h : Steady k stack) :
    Steady level stack := by
  unfold Steady at h ⊢
  split
  · exact Nat.lt_of_lt_of_le h hle
  · exact h
  · exact h
  · trivial

/-- Nothing is completed on a stack that is steady. -/
theorem Steady.reduce {level : Nat} {stack : List Frame} (h : Steady level stack) (e : Expr) :
    reduce level stack e = (stack, e) := by
  unfold Target.reduce
  split
  · exact if_neg (Nat.not_le.mpr h)
  · exact h.elim
  · exact h.elim
  · rfl

theorem reduce_binary {level : Nat} {op : Infix} (h : level ≤ op.level) (left : Expr)
    (stack : List Frame) (e : Expr) :
    reduce level (.binary op left :: stack) e = reduce level stack (.binary op left e) :=
  if_pos h

/-- What a tight level has completed, a loose one completes further. -/
theorem reduce_reduce {k level : Nat} (hle : k ≤ level) (stack : List Frame) (e : Expr) :
    reduce k (reduce level stack e).1 (reduce level stack e).2 = reduce k stack e := by
  fun_induction reduce level stack e with
  | case1 op left stack e h ih => rw [ih, reduce_binary (Nat.le_trans hle h)]
  | case2 op left stack e h => rfl
  | case3 stack e ih => exact ih
  | case4 stack e ih => exact ih
  | case5 stack e => rfl

/-- What is settled at a tight level can be settled at a loose one. -/
theorem State.settle_mono {k level : Nat} (hle : k ≤ level) {st : State} {stack : List Frame}
    {e : Expr} (h : st.settle level = some (stack, e)) :
    st.settle k = some (reduce k stack e) := by
  unfold State.settle at h ⊢
  split at h
  · next e' _ =>
    have hpair := Option.some.inj h
    rw [← reduce_reduce hle, hpair]
  · next e' _ =>
    have hpair := Option.some.inj h
    rw [← reduce_reduce hle, hpair]
  · cases h

/-- Behind a settled operand only a call, a field, an index or a `?` would still bind to it. -/
theorem step_of_settle {level : Nat} {st : State} {x : List Frame × Expr}
    (h : st.settle level = some x) {token : Token}
    (hbehind : token ∉ [.mark '.', .mark '?', .mark '(', .mark '[']) :
    step st token = stepBehind st token := by
  obtain ⟨stack, hand⟩ := st
  cases hand with
  | operand e =>
    simp only [List.mem_cons, List.not_mem_nil, or_false, not_or] at hbehind
    simp only [step]
    split
    · exact absurd rfl hbehind.1
    · exact absurd rfl hbehind.2.1
    · exact absurd rfl hbehind.2.2.1
    · exact absurd rfl hbehind.2.2.2
    · rfl
  | whole e => rfl
  | want | dot | target | header | statement => cases h

/-! ## Expressions -/

/-- The text is an expression that a call or a field may be attached to. -/
def Operand (s : String) (e : Expr) : Prop :=
  ∀ stack, Leads s ⟨stack, .want⟩ ⟨stack, .operand e⟩

/-- The text is an expression whose parts hold together at least as tightly as the level. -/
def Binds (level : Nat) (s : String) (e : Expr) : Prop :=
  ∀ stack, Steady level stack →
    ∃ st, Leads s ⟨stack, .want⟩ st ∧ st.settle level = some (stack, e)

theorem Operand.binds {s : String} {e : Expr} (h : Operand s e) (level : Nat) :
    Binds level s e := fun stack hsteady =>
  ⟨⟨stack, .operand e⟩, h stack, congrArg some (hsteady.reduce e)⟩

/-- What binds tightly also binds loosely. -/
theorem Binds.mono {k level : Nat} (hle : k ≤ level) {s : String} {e : Expr}
    (h : Binds level s e) : Binds k s e := by
  intro stack hsteady
  obtain ⟨st, hleads, hsettle⟩ := h stack (hsteady.mono hle)
  refine ⟨st, hleads, ?_⟩
  rw [State.settle_mono hle hsettle, hsteady.reduce]

/-- A text that binds is read as its expression. -/
theorem expression?_of_binds {s : String} {e : Expr} (h : Binds 0 s e) :
    expression? s = some e := by
  obtain ⟨st, hleads, hsettle⟩ := h [] trivial
  have hread : State.read ⟨[], .want⟩ s.toList = some st := by
    have hall := hleads [] stops_nil
    rwa [List.append_nil] at hall
  rw [expression?, hread, Option.bind_eq_bind, Option.bind_some, hsettle]
  rfl

/-! ## Operands -/

/-- A name or a number is an operand. -/
theorem operand_word {word : String} (h : IsWord word) {e : Expr} (he : operand? word = some e) :
    Operand word e := by
  intro stack
  refine leads_word h ?_
  rw [step, stepWant, he]
  rfl

theorem isWordChar_of_isIdentifierChar {c : Char} (h : Source.isIdentifierChar c = true) :
    isWordChar c = true := by
  rw [Source.isIdentifierChar, Bool.or_eq_true] at h
  rcases h with h | h
  · exact isWordChar_of_textWordChar h
  · rw [isWordChar, h, Bool.or_true]

theorem isWordChar_of_isDigit {c : Char} (h : c.isDigit = true) : isWordChar c = true :=
  isWordChar_of_textWordChar (by simp [Text.isWordChar, Char.isAlphanum, h])

/-- A number with a suffix of letters is one literal. -/
theorem operand_literal (n : Nat) {suffix : String}
    (hchars : suffix.toList.all isWordChar = true)
    (hfirst : suffix.toList.head?.any Char.isDigit = false) :
    Operand (toString n ++ suffix) (.literal n suffix) := by
  have hdigits : ∀ c ∈ Nat.toDigits 10 n, c.isDigit = true := fun c hc =>
    Nat.isDigit_of_mem_toDigits (by decide) (by decide) hc
  have htext : (toString n ++ suffix).toList = Nat.toDigits 10 n ++ suffix.toList := by
    rw [String.toList_append, Nat.toString_eq_ofList_toDigits, String.toList_ofList]
  have hstop : suffix.toList.takeWhile Char.isDigit = [] ∧
      suffix.toList.dropWhile Char.isDigit = suffix.toList := by
    cases hlist : suffix.toList with
    | nil => exact ⟨rfl, rfl⟩
    | cons c rest =>
      rw [hlist] at hfirst
      have hc : c.isDigit = false := hfirst
      simp [hc]
  have hread : operand? (toString n ++ suffix) = some (.literal n suffix) := by
    rw [operand?, htext, List.takeWhile_append_of_pos hdigits, List.dropWhile_append_of_pos hdigits,
      hstop.1, hstop.2, List.append_nil, Text.readDigits_eq_some.mpr (Length.numeral_toDigits n),
      String.ofList_toList]
  refine operand_word (isWord_of_chars (fun c hc => ?_) fun hempty => ?_) hread
  · rw [htext, List.mem_append] at hc
    exact hc.elim (fun hc => isWordChar_of_isDigit (hdigits c hc)) (List.all_eq_true.mp hchars c)
  · rw [hempty] at htext
    exact Nat.toDigits_ne_nil (List.append_eq_nil_iff.mp htext.symm).1

/-- The marks that close what is around an expression, or end it. -/
def closers : List Char := [')', ']', '}', ',', ';']

theorem foldlM_closer {st : State} {settled : List Frame × Expr} (h : st.settle 0 = some settled)
    {c : Char} (hc : c ∈ closers) {st' : State} (hclose : stepClose settled (.mark c) = some st') :
    [Token.mark c].foldlM step st = some st' := by
  have hapart : Token.mark c ∉ [.mark '.', .mark '?', .mark '(', .mark '['] ∧
      infix? (.mark c) = none := by
    simp only [closers, List.mem_cons, List.not_mem_nil, or_false] at hc
    rcases hc with rfl | rfl | rfl | rfl | rfl <;> exact ⟨by decide, rfl⟩
  rw [List.foldlM_cons, step_of_settle h hapart.1, stepBehind, hapart.2]
  simp only [reduceCtorEq, if_false, h]
  rw [Option.bind_eq_bind, Option.bind_eq_bind, Option.bind_some, hclose]
  rfl

/-- A closing mark completes what stands in front of it. -/
theorem Binds.close {s : String} {e : Expr} (h : Binds 0 s e) (stack : List Frame)
    (hsteady : Steady 0 stack) {close : String} {c : Char} (hspells : Spells close [.mark c])
    (hseparates : Separates close) (hc : c ∈ closers) {st' : State}
    (hclose : stepClose (stack, e) (.mark c) = some st') :
    Leads (s ++ close) ⟨stack, .want⟩ st' := by
  obtain ⟨st, hleads, hsettle⟩ := h stack hsteady
  exact hleads.append hseparates (hspells.leads (foldlM_closer hsettle hc hclose))

/-- An expression between a mark and the one that closes it. -/
theorem Binds.enclosed {s : String} {e : Expr} (h : Binds 0 s e) {before after : String}
    {ts : List Token} (hbefore : Spells before ts) {st : State} (stack : List Frame)
    (hsteps : ts.foldlM step st = some ⟨stack, .want⟩) (hsteady : Steady 0 stack) {c : Char}
    (hafter : Spells after [.mark c]) (hseparates : Separates after) (hc : c ∈ closers)
    {st' : State} (hclose : stepClose (stack, e) (.mark c) = some st') :
    Leads (before ++ (s ++ after)) st st' :=
  hbefore.leads_append hsteps (h.close stack hsteady hafter hseparates hc hclose)

theorem spells_open : Spells "(" [.mark '('] := spells_mark rfl (by decide) (by decide)

theorem spells_close : Spells ")" [.mark ')'] := spells_mark rfl (by decide) (by decide)

theorem separates_open : Separates "(" := separates_of_head (c := '(') rfl (by decide) (by decide)

theorem separates_close : Separates ")" := separates_of_head (c := ')') rfl (by decide) (by decide)

/-- An expression in parentheses is an operand. -/
theorem Binds.parens {s : String} {e : Expr} (h : Binds 0 s e) : Operand ("(" ++ (s ++ ")")) e :=
  fun stack => h.enclosed spells_open (.parens :: stack) rfl trivial spells_close separates_close
    (by decide) rfl

section

variable {s : String} {e : Expr} (h : Operand s e)

include h

/-- Something attached to an operand. -/
theorem Operand.append {s' : String} {e' : Expr} (hs : Separates s')
    (h' : ∀ stack, Leads s' ⟨stack, .operand e⟩ ⟨stack, .operand e'⟩) : Operand (s ++ s') e' :=
  fun stack => (h stack).append hs (h' stack)

theorem Operand.member {word name : String} (hword : IsWord word)
    (hname : memberName? word = some name) :
    Operand (s ++ ("." ++ word)) (.member e name) := by
  have hdot : Separates "." := separates_of_head (c := '.') rfl (by decide) (by decide)
  have hmark : Spells "." [.mark '.'] := spells_mark rfl (by decide) (by decide)
  have hname' (stack : List Frame) : step ⟨stack, .dot e⟩ (.word word) =
      some ⟨stack, .operand (.member e name)⟩ := by
    simp only [step, hname, Option.map_some]
  exact h.append (hdot.append word) fun stack =>
    hmark.leads_append rfl (leads_word hword (hname' stack))

theorem Operand.attempt : Operand (s ++ "?") (.attempt e) := by
  have hmark : Spells "?" [.mark '?'] := spells_mark rfl (by decide) (by decide)
  exact h.append (separates_of_head (c := '?') rfl (by decide) (by decide)) fun _ =>
    hmark.leads rfl

theorem Operand.call {x : String} {argument : Expr} (hx : Binds 0 x argument) :
    Operand (s ++ ("(" ++ (x ++ ")"))) (.call e [argument]) :=
  h.append (separates_open.append _) fun stack =>
    hx.enclosed spells_open (.call e [] :: stack) rfl trivial spells_close separates_close
      (by decide) rfl

theorem Operand.callNone : Operand (s ++ "()") (.call e []) := by
  have hmarks : Spells "()" [.mark '(', .mark ')'] := fun _ => rfl
  exact h.append (separates_of_head (c := '(') rfl (by decide) (by decide)) fun _ =>
    hmarks.leads rfl

theorem Operand.index {x : String} {place : Expr} (hx : Binds 0 x place) :
    Operand (s ++ ("[" ++ (x ++ "]"))) (.index e place) := by
  have hopen : Spells "[" [.mark '['] := spells_mark rfl (by decide) (by decide)
  have hclose : Spells "]" [.mark ']'] := spells_mark rfl (by decide) (by decide)
  have hseparates : Separates "[" := separates_of_head (c := '[') rfl (by decide) (by decide)
  exact h.append (hseparates.append _) fun stack =>
    hx.enclosed hopen (.index e :: stack) rfl trivial hclose
      (separates_of_head (c := ']') rfl (by decide) (by decide)) (by decide) rfl

/-- The star in front of an operand. -/
theorem Operand.deref : Binds 6 ("*" ++ s) (.deref e) := by
  have hmark : Spells "*" [.mark '*'] := spells_mark rfl (by decide) (by decide)
  intro stack hsteady
  refine ⟨⟨.deref :: stack, .operand e⟩, hmark.leads_append rfl (h _), ?_⟩
  exact congrArg some (hsteady.reduce (.deref e))

theorem Operand.borrow : Binds 6 ("&" ++ s) (.borrow e) := by
  have hmark : Spells "&" [.mark '&'] := spells_mark rfl (by decide) (by decide)
  intro stack hsteady
  refine ⟨⟨.borrow :: stack, .operand e⟩, hmark.leads_append rfl (h _), ?_⟩
  exact congrArg some (hsteady.reduce (.borrow e))

end

/-! ## Operators -/

/-- A cast binds as tightly as `as` does, and casts may be chained. -/
theorem Binds.cast {s : String} {e : Expr} (h : Binds castLevel s e) {type : String}
    (htype : IsWord type) :
    Binds castLevel (s ++ (" as " ++ type)) (.cast e type) := by
  intro stack hsteady
  obtain ⟨st, hleads, hsettle⟩ := h stack hsteady
  have has : Spells " as " [.word "as"] := fun _ => rfl
  have hseparates : Separates " as " := separates_of_space rfl
  have hstep : [Token.word "as"].foldlM step st = some ⟨stack, .target e⟩ := by
    rw [List.foldlM_cons, step_of_settle hsettle (by decide), stepBehind]
    simp only [infix?, if_true, hsettle, Option.map_some]
    rfl
  refine ⟨⟨stack, .whole (.cast e type)⟩, hleads.append (hseparates.append type)
    (has.leads_append hstep (leads_word htype rfl)), ?_⟩
  exact congrArg some (hsteady.reduce _)

/-- An operator takes what binds as tightly on its left, and what binds more tightly on its
right. -/
theorem Binds.binary {op : Infix} {sl sr mark : String} {l r : Expr} (hl : Binds op.level sl l)
    (hr : Binds (op.level + 1) sr r) {token : Token} (hmark : Spells mark [token])
    (hseparates : Separates mark) (htoken : infix? token = some op) :
    Binds op.level (sl ++ (mark ++ sr)) (.binary op l r) := by
  intro stack hsteady
  obtain ⟨st, hleads, hsettle⟩ := hl stack hsteady
  -- The operator completes what stands on its left; its own frame then waits for what binds more
  -- tightly, and is completed at the level of the whole.
  have hright : Steady (op.level + 1) (.binary op l :: stack) := Nat.lt_succ_self _
  obtain ⟨st', hleads', hsettle'⟩ := hr (.binary op l :: stack) hright
  refine ⟨st', hleads.append (hseparates.append _) (hmark.leads_append ?_ hleads'), ?_⟩
  · have hapart : token ∉ [.mark '.', .mark '?', .mark '(', .mark '['] := by
      intro hmem
      simp only [List.mem_cons, List.not_mem_nil, or_false] at hmem
      rcases hmem with rfl | rfl | rfl | rfl <;> cases htoken
    rw [List.foldlM_cons, step_of_settle hsettle hapart, stepBehind, htoken]
    simp only [hsettle, Option.map_some]
    rfl
  · rw [State.settle_mono (Nat.le_succ _) hsettle', reduce_binary (Nat.le_refl _), hsteady.reduce]

/-! ## Lists and closures -/

/-- Items with commas between them are collected from left to right. -/
theorem leads_items {places : List Nat} {text : Nat → String} {item : Nat → Expr}
    (h : ∀ i ∈ places, Binds 0 (text i) (item i)) (hne : places ≠ []) (before : List Expr)
    (stack : List Frame) :
    Leads (String.intercalate ", " (places.map text) ++ "]") ⟨.array before :: stack, .want⟩
      ⟨stack, .operand (.array (before ++ places.map item))⟩ := by
  have hcomma : Spells ", " [.mark ','] := fun _ => rfl
  have hclose : Spells "]" [.mark ']'] := spells_mark rfl (by decide) (by decide)
  -- The frame holds the items read so far, so the induction is over any number of them; the last
  -- item is followed by the bracket and every other one by a comma.
  induction places generalizing before with
  | nil => exact absurd rfl hne
  | cons i later ih =>
    have hfirst := h i (List.mem_cons_self ..)
    cases later with
    | nil =>
      exact hfirst.close (.array before :: stack) trivial hclose
        (separates_of_head (c := ']') rfl (by decide) (by decide)) (by decide) rfl
    | cons j later =>
      obtain ⟨st, hleads, hsettle⟩ := hfirst (.array before :: stack) trivial
      have hlater := ih (fun k hk => h k (List.mem_cons_of_mem i hk)) (by simp) (before ++ [item i])
      rw [List.append_assoc] at hlater
      rw [List.map_cons, List.map_cons, String.intercalate_cons_cons, String.append_assoc,
        String.append_assoc]
      exact hleads.append
        ((separates_of_head (c := ',') rfl (by decide) (by decide) : Separates ", ").append _)
        (hcomma.leads_append (foldlM_closer hsettle (by decide) rfl) hlater)

theorem operand_array {places : List Nat} {text : Nat → String} {item : Nat → Expr}
    (h : ∀ i ∈ places, Binds 0 (text i) (item i)) (hne : places ≠ []) :
    Operand ("[" ++ (String.intercalate ", " (places.map text) ++ "]"))
      (.array (places.map item)) := by
  have hopen : Spells "[" [.mark '['] := spells_mark rfl (by decide) (by decide)
  exact fun stack => hopen.leads_append rfl (leads_items h hne [] stack)

/-- A closure without parameters goes on to its closing brace. -/
theorem Binds.closure {s : String} {e : Expr} (h : Binds 0 s e) :
    Binds 0 ("|| -> ::std::option::Option<u64> \x7b " ++ (s ++ " \x7d"))
      (.closure optionalWord e) := by
  intro stack hsteady
  have hheader : Spells "|| -> ::std::option::Option<u64> \x7b "
    (.double '|' :: optionalWord ++ [.mark '{']) := fun _ => rfl
  have hclose : Spells " \x7d" [.mark '}'] := fun _ => rfl
  refine ⟨⟨stack, .whole (.closure optionalWord e)⟩, ?_, ?_⟩
  · exact h.enclosed hheader (.closure optionalWord :: stack) rfl trivial hclose
      (separates_of_space rfl) (by decide) rfl
  · exact congrArg some (hsteady.reduce _)

end WireCodec.Target
