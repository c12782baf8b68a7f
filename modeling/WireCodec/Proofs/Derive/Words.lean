import WireCodec.Derive.Options
import WireCodec.Proofs.Source.Members

/-!
# Words in option texts

The reader of tokens makes words of identifiers only, and gives none of the words that have no raw
form in raw form.  A text that spells a name therefore spells one that a member may have.
-/

namespace WireCodec

variable {σ α β : Type}

/-- A reader followed by another succeeds exactly if both do, one behind the other. -/
theorem run_bind_eq_some {x : StateT σ Option α} {f : α → StateT σ Option β} {s s' : σ} {b : β} :
    (x >>= f).run s = some (b, s') ↔ ∃ a t, x.run s = some (a, t) ∧ (f a).run t = some (b, s') := by
  rw [StateT.run_bind, Option.bind_eq_bind, Option.bind_eq_some_iff]
  exact ⟨fun ⟨⟨a, t⟩, hx, hf⟩ => ⟨a, t, hx, hf⟩, fun ⟨a, t, hx, hf⟩ => ⟨⟨a, t⟩, hx, hf⟩⟩

namespace Text.Reader

/-! ## What readers yield -/

/-- Whatever a reader yields, from wherever it starts, is good. -/
def Yields (r : StateT σ Option α) (good : α → Prop) : Prop :=
  ∀ s a t, r.run s = some (a, t) → good a

namespace Yields

variable {good : α → Prop} {further : β → Prop}

theorem pure {a : α} (h : good a) : Yields (Pure.pure a : StateT σ Option α) good := by
  rintro s b t hrun
  cases hrun
  exact h

theorem failure : Yields (Alternative.failure : StateT σ Option α) good := by
  rintro s a t hrun
  cases hrun

theorem bind {x : StateT σ Option α} {f : α → StateT σ Option β} (hx : Yields x good)
    (hf : ∀ a, good a → Yields (f a) further) : Yields (x >>= f) further := by
  rintro s b t hrun
  obtain ⟨a, u, hfirst, hrest⟩ := run_bind_eq_some.mp hrun
  exact hf a (hx s a u hfirst) u b t hrest

/-- It does not matter what the first part yields. -/
theorem behind {x : StateT σ Option α} {f : α → StateT σ Option β}
    (hf : ∀ a, Yields (f a) further) : Yields (x >>= f) further :=
  bind (show Yields x fun _ => True from fun _ _ _ _ => trivial) fun a _ => hf a

theorem failed {f : α → StateT σ Option β} : Yields (Alternative.failure >>= f) further :=
  bind (show Yields Alternative.failure fun _ => False from failure) fun _ h => h.elim

theorem repeatUpTo {step : StateT σ Option (Option α)} (h : Yields step (∀ a ∈ ·, good a))
    (n : Nat) : Yields (repeatUpTo step n) (∀ a ∈ ·, good a) := by
  induction n with
  | zero => exact failure
  | succ n ih =>
    refine bind h fun found hfound => ?_
    cases found with
    | none => exact pure (by simp)
    | some a =>
      refine bind ih fun more hmore => pure ?_
      exact List.forall_mem_cons.mpr ⟨hfound a rfl, hmore⟩

theorem many {step : Reader (Option α)} (h : Yields step (∀ a ∈ ·, good a)) :
    Yields (many step) (∀ a ∈ ·, good a) :=
  behind fun _ => repeatUpTo h _

theorem readAll {r : Reader α} (h : Yields r good) {s : String} {a : α}
    (hread : readAll r s = some a) : good a := by
  unfold Reader.readAll at hread
  split at hread
  · rename_i b line column fresh hrun
    cases hread
    exact h _ _ _ hrun
  · cases hread

end Yields

/-- As many characters as were asked for, from the front. -/
theorem run_mapM_next {asked taken : List Char} {s t : Cursor}
    (h : (asked.mapM fun _ => next).run s = some (taken, t)) :
    taken = s.rest.take asked.length := by
  induction asked generalizing s taken with
  | nil =>
    cases h
    rfl
  | cons c asked ih =>
    rw [List.mapM_cons] at h
    obtain ⟨first, u, hnext, h⟩ := run_bind_eq_some.mp h
    obtain ⟨more, v, hmore, h⟩ := run_bind_eq_some.mp h
    cases h
    obtain ⟨chars, line, column, fresh⟩ := s
    cases chars with
    | nil => cases hnext
    | cons d chars =>
      have hrest (at_ : Cursor) : (at_.advance d chars).rest = chars := by
        unfold Cursor.advance
        split <;> rfl
      cases hnext
      rw [ih hmore, hrest]
      rfl

theorem run_takeWhile {p : Char → Bool} {taken : List Char} {s t : Cursor}
    (h : (takeWhile p).run s = some (taken, t)) : taken = s.rest.takeWhile p := by
  rw [run_mapM_next (s := s) h]
  exact (List.prefix_iff_eq_take.mp (List.takeWhile_prefix p)).symm

end Text.Reader

namespace Derive

open Text Text.Reader Source

/-! ## Words -/

/-- A token that may stand in a text as it is: words are identifiers, and may be raw if they are. -/
def Token.Spelled : Token → Prop
  | .word name raw => IsIdentifierWord name ∧ (raw = true → name ∉ neverRaw)
  | _ => True

/-- A side of brackets, or a token that may stand in a text. -/
def Lexeme.Spelled : Lexeme → Prop
  | .leaf t => t.Spelled
  | _ => True

/-- A letter that starts a word and all that go on with it are one word. -/
theorem isIdentifierWord_takeWhile {s : List Char} (h : s.head?.any startsIdentifier = true) :
    IsIdentifierWord (String.ofList (s.takeWhile continuesIdentifier)) := by
  cases s with
  | nil => cases h
  | cons c rest =>
    have hfirst : startsIdentifier c = true := h
    refine ⟨c, rest.takeWhile continuesIdentifier, ?_, hfirst, fun d hd =>
      List.all_eq_true.mp List.all_takeWhile d hd⟩
    rw [String.toList_ofList, List.takeWhile_cons,
      if_pos (continuesIdentifier_of_startsIdentifier hfirst)]

/-- The lexer gives names only to words. -/
theorem yields_word : Yields word Token.Spelled := by
  -- What stands behind the mark of raw form, if there is one.
  have hname (raw : Bool) : Yields (do
      unless (← peek).any startsIdentifier do failure
      let name := String.ofList (← takeWhile continuesIdentifier)
      if raw && neverRaw.contains name then failure
      return .word name raw) Token.Spelled := by
    intro s t u hrun
    obtain ⟨c, v, hpeek, hrun⟩ := run_bind_eq_some.mp hrun
    have hhead : c = s.rest.head? ∧ v = s := by
      cases hpeek
      exact ⟨rfl, rfl⟩
    obtain ⟨rfl, rfl⟩ := hhead
    split at hrun
    · rename_i hstarts
      obtain ⟨taken, w, htaken, hrun⟩ := run_bind_eq_some.mp hrun
      rw [run_takeWhile htaken] at hrun
      dsimp only at hrun
      split at hrun
      · cases hrun
      · rename_i hraw
        cases hrun
        refine ⟨isIdentifierWord_takeWhile hstarts, fun h hmem => hraw ?_⟩
        rw [h, Bool.true_and]
        exact List.contains_iff_mem.mpr hmem
    · cases hrun
  refine .behind fun raw => ?_
  split
  · exact .behind fun _ => hname raw
  · exact hname raw

theorem yields_mark : Yields mark Token.Spelled := by
  have htail : Yields lifetimeTail Token.Spelled := by
    refine .behind fun here => .behind fun raw => .behind fun _ => ?_
    refine .behind fun c => .behind fun d => ?_
    dsimp only
    split
    · exact .failed
    · split
      · exact .behind fun _ => .pure trivial
      · exact .pure trivial
  unfold mark
  refine .behind fun punctuation => ?_
  dsimp only
  split
  · refine .behind fun c => ?_
    split
    · exact htail
    · exact .behind fun joined => .pure trivial
  · exact .failed

theorem yields_documentation? : Yields documentation? (∀ found ∈ ·, ∀ l ∈ found, l.Spelled) := by
  have hgood (inner : Bool) : ∀ found ∈ some (documentation inner), ∀ l ∈ found, l.Spelled := by
    have hdoc : (Lexeme.leaf (.word "doc" false)).Spelled :=
      ⟨isIdentifierWord_of_isName (by decide), fun h => by cases h⟩
    have hbrackets : ∀ l ∈ [Lexeme.opening .brackets, .leaf (.word "doc" false),
        .leaf (.mark '=' false), .leaf (.literal (.text "")), .closing .brackets], l.Spelled := by
      simp only [List.forall_mem_cons]
      exact ⟨trivial, hdoc, trivial, trivial, trivial, List.forall_mem_nil _⟩
    rintro found ⟨⟩
    cases inner with
    | false => exact List.forall_mem_cons.mpr ⟨trivial, hbrackets⟩
    | true =>
      exact List.forall_mem_cons.mpr ⟨trivial, List.forall_mem_cons.mpr ⟨trivial, hbrackets⟩⟩
  have hinLine (inner : Bool) : Yields (do
      let comment ← lineComment
      unless endsLinesWhole (comment ++ (← peek).toList) do failure
      return some (documentation inner)) (∀ found ∈ ·, ∀ l ∈ found, l.Spelled) := by
    refine .behind fun comment => .behind fun c => ?_
    dsimp only
    split
    · exact .pure (hgood inner)
    · exact .failed
  have hinBlock (inner : Bool) : Yields (do
      unless endsLinesWhole (← blockComment) do failure
      return some (documentation inner)) (∀ found ∈ ·, ∀ l ∈ found, l.Spelled) := by
    refine .behind fun comment => ?_
    dsimp only
    split
    · exact .pure (hgood inner)
    · exact .failed
  unfold documentation?
  refine .behind fun _ => ?_
  split
  · exact hinLine false
  refine .behind fun _ => ?_
  split
  · exact hinLine true
  refine .behind fun _ => ?_
  split
  · exact hinBlock false
  refine .behind fun _ => ?_
  split
  · exact hinBlock true
  · exact .pure (by simp)

/-- The tokens that a text starts with may stand in it, and so may the sides of brackets. -/
theorem yields_lexemes? : Yields lexemes? (∀ found ∈ ·, ∀ l ∈ found, l.Spelled) := by
  have hone {l : Lexeme} (h : l.Spelled) : ∀ found ∈ some [l], ∀ m ∈ found, m.Spelled := by
    simpa using h
  -- Only documentation and words have anything to show; marks, brackets and literals may stand.
  unfold lexemes?
  refine .behind fun _ => .bind yields_documentation? fun comment hcomment => ?_
  split
  · exact .pure hcomment
  refine .behind fun c => ?_
  split
  · exact .pure (by simp)
  refine .behind fun missing => ?_
  split
  · exact .behind fun _ => .pure (hone trivial)
  split
  · rename_i bracket hbracket
    have hside : bracket.Spelled := by
      unfold bracketOf? at hbracket
      split at hbracket <;> first | cases hbracket; trivial | cases hbracket
    exact .behind fun _ => .pure (hone hside)
  refine .behind fun value => ?_
  split
  · exact .pure (hone trivial)
  refine .behind fun punctuation => ?_
  dsimp only
  split
  · exact .bind yields_mark fun t ht => .pure (hone ht)
  · exact .bind yields_word fun t ht => .pure (hone ht)

/-! ## Brackets -/

/-- Nesting lexemes into groups makes no new names. -/
theorem spelled_of_nest {lexemes : List Lexeme} {done : List Token}
    {around : List (Delimiter × List Token)} {tokens : List Token}
    (hlexemes : ∀ l ∈ lexemes, l.Spelled) (hdone : ∀ t ∈ done, t.Spelled)
    (haround : ∀ g ∈ around, ∀ t ∈ g.2, t.Spelled)
    (h : nest lexemes done around = some tokens) : ∀ t ∈ tokens, t.Spelled := by
  -- The induction is on the reading.  A group that is still open comes back when it closes, so what
  -- stands around must be kept good as well as what is done.
  induction lexemes, done, around using nest.induct with
  | case1 done =>
    cases h
    exact fun t ht => hdone t (List.mem_reverse.mp ht)
  | case2 => cases h
  | case3 done around t rest ih =>
    obtain ⟨ht, hrest⟩ := List.forall_mem_cons.mp hlexemes
    exact ih hrest (List.forall_mem_cons.mpr ⟨ht, hdone⟩) haround h
  | case4 done around d rest ih =>
    have hrest := (List.forall_mem_cons.mp hlexemes).2
    exact ih hrest (by simp) (List.forall_mem_cons.mpr ⟨hdone, haround⟩) h
  | case5 => cases h
  | case6 done rest d outer around ih =>
    obtain ⟨houter, haround⟩ := List.forall_mem_cons.mp haround
    have hrest := (List.forall_mem_cons.mp hlexemes).2
    rw [nest, if_pos rfl] at h
    exact ih hrest (List.forall_mem_cons.mpr ⟨trivial, houter⟩) haround h
  | case7 done d rest e outer around hne =>
    rw [nest, if_neg hne] at h
    cases h

/-- The tokens of a text may stand in it. -/
theorem spelled_of_tokens? {s : String} {tokens : List Token} (h : tokens? s = some tokens) :
    ∀ t ∈ tokens, t.Spelled := by
  obtain ⟨found, hfound, hnest⟩ := Option.bind_eq_some_iff.mp h
  have hgood := Yields.readAll (.many yields_lexemes?) hfound
  refine spelled_of_nest (fun l hl => ?_) (by simp) (by simp) hnest
  obtain ⟨part, hpart, hl⟩ := List.mem_flatten.mp hl
  exact hgood part hpart l hl

/-- A text that spells a name spells one that a member may have, or the one keyword that the reader
of tokens does not know. -/
theorem legalMember_of_spelledName? {s name : String} (h : spelledName? s = some name) :
    LegalMember name ∨ name = "gen" := by
  have hkeyword : ∀ word ∈ keywords, word ∈ reservedWords ∨ word = "gen" := by decide
  have hpath : ∀ word ∈ neverRaw, word ∈ reservedWords := by decide
  unfold spelledName? at h
  split at h
  · rename_i word raw htokens
    obtain ⟨hword, hraw⟩ := spelled_of_tokens? htokens (.word word raw) (List.mem_singleton_self _)
    split at h
    · rename_i hfree
      cases h
      cases raw with
      | false =>
        have hplain : word ∉ reservedWords := fun hmem => by
          rw [isFree, List.contains_iff_mem.mpr hmem] at hfree
          cases hfree
        show LegalMember word ∨ word = "gen"
        by_cases hgen : word = "gen"
        · exact .inr hgen
        · exact .inl (.plain hword (fun hmem => (hkeyword word hmem).elim hplain hgen)
            fun hmem => hplain (hpath word hmem))
      | true => exact .inl (.raw hword (hraw rfl))
    · cases h
  · cases h

end Derive

end WireCodec
