import Mathlib.Data.List.Nodup
import Mathlib.Data.List.Perm.Subperm
import WireCodec.Typing.Alias

/-!
# Chains of aliases

The chain of a name goes from each name to its target and stops at the first one that is a primitive
or has no target.  Resolving a name finds where its chain stops, or that it never does: a chain of
more hops than the table has names comes back to a name, and from there on it goes around.
-/

namespace WireCodec

/-! ## Primitives -/

namespace ScalarKind

/-- The primitives whose width depends on the platform. -/
def platformSized : List String := ["usize", "isize"]

/-- The other primitives that are no kinds. -/
def withoutForm : List String := ["bool", "char", "str", "String", "u128", "i128"]

/-- The names that are no aliases, whatever a table says. -/
def primitives : List String := all.map name ++ platformSized ++ withoutForm

/-- A primitive is no kind, for a reason. -/
inductive Refused : String → Unrepresentable → Prop where
  | platformSized {name : String} (h : name ∈ platformSized) : Refused name (.platformSized name)
  | noWireForm {name : String} (h : name ∈ withoutForm) : Refused name (.noWireForm name)

theorem lookup_eq_some {name : String} {k : ScalarKind} :
    lookup name = .ok (some k) ↔ name = k.name := by
  constructor
  · intro h
    unfold lookup at h
    split at h <;> cases h <;> rfl
  · rintro rfl
    exact lookup_name k

theorem lookup_eq_error {name : String} {cause : Unrepresentable} :
    lookup name = .error cause ↔ Refused name cause := by
  constructor
  · intro h
    unfold lookup at h
    split at h <;> cases h
    all_goals first
      | exact .platformSized (by decide)
      | exact .noWireForm (by decide)
  · intro h
    cases h with
    | platformSized h =>
      simp only [platformSized, List.mem_cons, List.not_mem_nil, or_false] at h
      rcases h with rfl | rfl <;> rfl
    | noWireForm h =>
      simp only [withoutForm, List.mem_cons, List.not_mem_nil, or_false] at h
      rcases h with rfl | rfl | rfl | rfl | rfl | rfl <;> rfl

theorem mem_primitives {name : String} :
    name ∈ primitives ↔ (∃ k : ScalarKind, name = k.name) ∨ ∃ cause, Refused name cause := by
  rw [primitives, List.append_assoc, List.mem_append, List.mem_append, List.mem_map]
  refine or_congr ⟨?_, ?_⟩ ⟨?_, ?_⟩
  · rintro ⟨k, -, rfl⟩
    exact ⟨k, rfl⟩
  · rintro ⟨k, rfl⟩
    exact ⟨k, by cases k <;> decide, rfl⟩
  · rintro (h | h)
    · exact ⟨_, .platformSized h⟩
    · exact ⟨_, .noWireForm h⟩
  · rintro ⟨cause, h | h⟩
    · exact .inl h
    · exact .inr h

theorem lookup_eq_none {name : String} : lookup name = .ok none ↔ name ∉ primitives := by
  rw [mem_primitives]
  constructor
  · rintro h (⟨k, hk⟩ | ⟨cause, hcause⟩)
    · rw [lookup_eq_some.mpr hk] at h
      cases h
    · rw [lookup_eq_error.mpr hcause] at h
      cases h
  · intro h
    match hlookup : lookup name with
    | .ok none => rfl
    | .ok (some k) => exact absurd (.inl ⟨k, lookup_eq_some.mp hlookup⟩) h
    | .error cause => exact absurd (.inr ⟨cause, lookup_eq_error.mp hlookup⟩) h

end ScalarKind

namespace AliasTable

/-! ## Chains -/

/-- The name behind a name, unless a chain stops there. -/
def next? (aliases : AliasTable) (name : String) : Option String :=
  if name ∈ ScalarKind.primitives then none else aliases.get? name

/-- The name that so many hops lead to, unless the chain stops before. -/
def chain (aliases : AliasTable) (name : String) : Nat → Option String
  | 0 => some name
  | hops + 1 => (aliases.chain name hops).bind aliases.next?

section Chain

variable {aliases : AliasTable} {name : String}

theorem next?_eq_some {next : String} :
    aliases.next? name = some next ↔
      name ∉ ScalarKind.primitives ∧ aliases.get? name = some next := by
  rw [next?]
  split <;> simp_all

/-- A chain stops at a primitive and at a name that has no alias. -/
theorem next?_eq_none : aliases.next? name = none ↔
    name ∈ ScalarKind.primitives ∨ aliases.get? name = none := by
  rw [next?]
  split <;> simp_all

/-- Hops may be made in two parts. -/
theorem chain_add (hops more : Nat) :
    aliases.chain name (hops + more) =
      (aliases.chain name hops).bind fun mid => aliases.chain mid more := by
  induction more with
  | zero =>
    rw [Nat.add_zero]
    cases aliases.chain name hops <;> rfl
  | succ more ih =>
    rw [← Nat.add_assoc, chain, ih, Option.bind_assoc]
    rfl

/-- A chain that is still going has been going all the time. -/
theorem chain_ne_none_of_le {hops more : Nat} (hle : hops ≤ more)
    (h : aliases.chain name more ≠ none) : aliases.chain name hops ≠ none := by
  obtain ⟨rest, rfl⟩ := Nat.exists_eq_add_of_le hle
  intro hnone
  exact h (by rw [chain_add, hnone, Option.bind_none])

/-- A chain that comes back to a name never stops. -/
theorem chain_ne_none_of_repeat {first second : Nat} (hlt : first < second) {mid : String}
    (hfirst : aliases.chain name first = some mid) (hsecond : aliases.chain name second = some mid)
    (hops : Nat) : aliases.chain name hops ≠ none := by
  obtain ⟨around, rfl⟩ := Nat.exists_eq_add_of_lt hlt
  have hround : aliases.chain mid (around + 1) = some mid := by
    rw [Nat.add_assoc, chain_add, hfirst, Option.bind_some] at hsecond
    exact hsecond
  have hrounds (n : Nat) : aliases.chain mid ((around + 1) * n) = some mid := by
    induction n with
    | zero => rfl
    | succ n ih => rw [Nat.mul_succ, chain_add, ih, Option.bind_some, hround]
  -- So many rounds take at least that many hops.
  have hle : hops ≤ first + (around + 1) * hops :=
    Nat.le_add_left_of_le (Nat.le_mul_of_pos_left hops (Nat.succ_pos around))
  refine chain_ne_none_of_le hle ?_
  rw [chain_add, hfirst, Option.bind_some, hrounds]
  exact Option.some_ne_none mid

/-- A chain without repetition has no more hops than the table has names. -/
theorem hops_le_size {hops : Nat} (h : aliases.chain name hops ≠ none)
    (distinct : ∀ i j mid, i < j → aliases.chain name i = some mid →
      aliases.chain name j ≠ some mid) : hops ≤ aliases.size := by
  -- The names that the hops start from, in order.
  let visited := (List.range hops).map fun i => (aliases.chain name i).getD name
  have hvisited {i : Nat} (hi : i < hops) :
      aliases.chain name i = some ((aliases.chain name i).getD name) := by
    obtain ⟨mid, hmid⟩ := Option.ne_none_iff_exists'.mp (chain_ne_none_of_le (Nat.le_of_lt hi) h)
    rw [hmid, Option.getD_some]
  have hnodup : visited.Nodup := by
    refine List.Nodup.map_on ?_ List.nodup_range
    intro i hi j hj hij
    rw [List.mem_range] at hi hj
    rcases Nat.lt_trichotomy i j with hlt | heq | hlt
    · exact absurd (hij ▸ hvisited hj) (distinct i j _ hlt (hvisited hi))
    · exact heq
    · exact absurd (hij ▸ hvisited hi) (distinct j i _ hlt (hvisited hj))
  have hsubset : visited ⊆ aliases.names := by
    intro mid hmid
    obtain ⟨i, hi, rfl⟩ := List.mem_map.mp hmid
    rw [List.mem_range] at hi
    have hnext := chain_ne_none_of_le hi h
    rw [chain, hvisited hi, Option.bind_some] at hnext
    obtain ⟨next, hnext⟩ := Option.ne_none_iff_exists'.mp hnext
    rw [← NameTable.isSome_get?, (next?_eq_some.mp hnext).2]
    rfl
  have hlength := (hnodup.subperm hsubset).length_le
  rwa [List.length_map, List.length_range, NameTable.names, List.length_map] at hlength

/-- A chain of more hops than there are names never stops. -/
theorem chain_ne_none_of_long (h : aliases.chain name (aliases.size + 1) ≠ none) (hops : Nat) :
    aliases.chain name hops ≠ none := by
  by_contra hstop
  have hle := hops_le_size h fun i j mid hlt hi hj =>
    chain_ne_none_of_repeat hlt hi hj hops hstop
  omega

end Chain

/-! ## What a name is resolved to -/

/-- What a name is resolved to, by the place where its chain stops. -/
inductive Resolved (aliases : AliasTable) (name : String) : Except TypeError ScalarType → Prop where
  /-- The chain stops at a kind. -/
  | kind {hops : Nat} {k : ScalarKind} (stop : aliases.chain name hops = some k.name) :
    Resolved aliases name (.ok ⟨if hops = 0 then none else some name, k⟩)
  /-- The chain stops at a primitive that is no kind. -/
  | primitive {hops : Nat} {last : String} {cause : Unrepresentable}
    (stop : aliases.chain name hops = some last) (refused : ScalarKind.Refused last cause) :
    Resolved aliases name
      (.error (if hops = 0 then .primitive cause else .leadsToPrimitive name cause))
  /-- The chain stops outside the table. -/
  | outside {hops : Nat} {last : String} (stop : aliases.chain name hops = some last)
    (free : last ∉ ScalarKind.primitives) (absent : last ∉ aliases.names) :
    Resolved aliases name (.error (if hops = 0 then .unknown name else .leadsNowhere name last))
  /-- The chain never stops. -/
  | cycle (endless : ∀ hops, aliases.chain name hops ≠ none) :
    Resolved aliases name (.error (.aliasCycle name))

section Resolve

variable {aliases : AliasTable} {name : String}

/-- What is told of a chain that stops at a name after so many hops. -/
def stopsAt (name : String) (hops : Nat) (last : String) : Except TypeError ScalarType :=
  match ScalarKind.lookup last with
  | .ok (some k) => .ok ⟨if hops = 0 then none else some name, k⟩
  | .error cause => .error (if hops = 0 then .primitive cause else .leadsToPrimitive name cause)
  | .ok none => .error (if hops = 0 then .unknown name else .leadsNowhere name last)

theorem stopsAt_ne_cycle (name : String) (hops : Nat) (last : String) :
    stopsAt name hops last ≠ .error (.aliasCycle name) := by
  unfold stopsAt
  cases hops <;> split <;> simp

/-- A name is resolved by where its chain stops, if it does. -/
theorem resolved_iff {result : Except TypeError ScalarType} :
    aliases.Resolved name result ↔
      (∃ hops last, aliases.chain name hops = some last ∧ aliases.next? last = none ∧
        result = stopsAt name hops last) ∨
      (∀ hops, aliases.chain name hops ≠ none) ∧ result = .error (.aliasCycle name) := by
  constructor
  · intro h
    cases h with
    | @kind hops k stop =>
      have hk : k.name ∈ ScalarKind.primitives := ScalarKind.mem_primitives.mpr (.inl ⟨k, rfl⟩)
      exact .inl ⟨hops, k.name, stop, next?_eq_none.mpr (.inl hk),
        by rw [stopsAt, ScalarKind.lookup_name]⟩
    | @primitive hops last cause stop refused =>
      have hlast : last ∈ ScalarKind.primitives :=
        ScalarKind.mem_primitives.mpr (.inr ⟨cause, refused⟩)
      exact .inl ⟨hops, last, stop, next?_eq_none.mpr (.inl hlast),
        by rw [stopsAt, ScalarKind.lookup_eq_error.mpr refused]⟩
    | @outside hops last stop free absent =>
      exact .inl ⟨hops, last, stop, next?_eq_none.mpr (.inr (NameTable.get?_eq_none.mpr absent)),
        by rw [stopsAt, ScalarKind.lookup_eq_none.mpr free]⟩
    | cycle endless => exact .inr ⟨endless, rfl⟩
  · rintro (⟨hops, last, stop, hnext, rfl⟩ | ⟨endless, rfl⟩)
    · unfold stopsAt
      split
      · rename_i k hk
        obtain rfl := ScalarKind.lookup_eq_some.mp hk
        exact .kind stop
      · rename_i cause hcause
        exact .primitive stop (ScalarKind.lookup_eq_error.mp hcause)
      · rename_i hnone
        have free := ScalarKind.lookup_eq_none.mp hnone
        have hget := (next?_eq_none.mp hnext).resolve_left free
        exact .outside stop free (NameTable.get?_eq_none.mp hget)
    · exact .cycle endless

/-- A chain stops once. -/
theorem hops_le_of_stop {hops more : Nat} {last : String}
    (stop : aliases.chain name hops = some last) (hnext : aliases.next? last = none)
    (h : aliases.chain name more ≠ none) : more ≤ hops := by
  by_contra hlt
  refine chain_ne_none_of_le (Nat.lt_of_not_le hlt) h ?_
  rw [chain, stop, Option.bind_some, hnext]

/-- A chain stops in one place only, so there is one result. -/
theorem Resolved.unique {result other : Except TypeError ScalarType}
    (h : aliases.Resolved name result) (hother : aliases.Resolved name other) : result = other := by
  rcases resolved_iff.mp h with ⟨hops, last, stop, hnext, rfl⟩ | ⟨endless, rfl⟩ <;>
    rcases resolved_iff.mp hother with ⟨more, last', stop', hnext', rfl⟩ | ⟨endless', rfl⟩
  · have hgoing : aliases.chain name hops ≠ none := by simp [stop]
    have hgoing' : aliases.chain name more ≠ none := by simp [stop']
    obtain rfl : hops = more :=
      Nat.le_antisymm (hops_le_of_stop stop' hnext' hgoing) (hops_le_of_stop stop hnext hgoing')
    obtain rfl : last = last' := Option.some.inj (stop.symm.trans stop')
    rfl
  · have := hops_le_of_stop stop hnext (endless' (hops + 1))
    omega
  · have := hops_le_of_stop stop' hnext' (endless (more + 1))
    omega
  · rfl

/-- Following the aliases for some steps either finds where the chain stops or makes a hop each. -/
theorem follow_ends (steps : Nat) {hops : Nat} {current : String}
    (h : aliases.chain name hops = some current) (free : current ∉ ScalarKind.primitives) :
    aliases.Resolved name (aliases.follow name steps current) ∨
      aliases.follow name steps current = .error (.aliasCycle name) ∧
        aliases.chain name (hops + steps) ≠ none := by
  induction steps generalizing hops current with
  | zero => exact .inr ⟨rfl, by simp [h]⟩
  | succ steps ih =>
    rw [follow]
    cases hget : aliases.get? current with
    | none =>
      -- The name itself has a target once a hop is made.
      have hname : current = name ↔ hops = 0 := by
        constructor
        · rintro rfl
          have start : aliases.chain current 0 = some current := rfl
          have hnext : aliases.next? current = none := next?_eq_none.mpr (.inr hget)
          exact Nat.le_zero.mp (hops_le_of_stop start hnext (by simp [h]))
        · rintro rfl
          exact (Option.some.inj h).symm
      have houtside := Resolved.outside h free (NameTable.get?_eq_none.mp hget)
      simp only [← hname] at houtside
      exact .inl houtside
    | some next =>
      have hchain : aliases.chain name (hops + 1) = some next := by
        rw [chain, h, Option.bind_some]
        exact next?_eq_some.mpr ⟨free, hget⟩
      dsimp only
      split
      · rename_i k hk
        rw [ScalarKind.lookup_eq_some.mp hk] at hchain
        exact .inl (.kind hchain)
      · rename_i hnone
        rw [Nat.add_comm steps, ← Nat.add_assoc]
        exact ih hchain (ScalarKind.lookup_eq_none.mp hnone)
      · rename_i cause hcause
        exact .inl (.primitive hchain (ScalarKind.lookup_eq_error.mp hcause))

/-- Following the hops comes to where the chain stops. -/
theorem resolved_resolve (aliases : AliasTable) (name : String) :
    aliases.Resolved name (aliases.resolve name) := by
  have start : aliases.chain name 0 = some name := rfl
  unfold resolve
  split
  · rename_i k hk
    rw [ScalarKind.lookup_eq_some.mp hk] at start ⊢
    exact .kind start
  · rename_i hnone
    rcases follow_ends (aliases.size + 1) start (ScalarKind.lookup_eq_none.mp hnone) with
      h | ⟨hcycle, hlong⟩
    · exact h
    · rw [Nat.zero_add] at hlong
      rw [hcycle]
      exact .cycle (chain_ne_none_of_long hlong)
  · rename_i cause hcause
    exact .primitive start (ScalarKind.lookup_eq_error.mp hcause)

/-- A name is resolved by its own chain alone. -/
theorem Resolved.congr {other : AliasTable}
    (agree : ∀ hops mid, aliases.chain name hops = some mid → mid ∉ ScalarKind.primitives →
      other.get? mid = aliases.get? mid) {result : Except TypeError ScalarType}
    (h : aliases.Resolved name result) : other.Resolved name result := by
  have hchain (hops : Nat) : other.chain name hops = aliases.chain name hops := by
    induction hops with
    | zero => rfl
    | succ hops ih =>
      rw [chain, chain, ih]
      cases hmid : aliases.chain name hops with
      | none => rfl
      | some mid =>
        rw [Option.bind_some, Option.bind_some, next?, next?]
        split
        · rfl
        · rename_i free
          exact agree hops mid hmid free
  cases h with
  | kind stop => exact .kind ((hchain _).trans stop)
  | primitive stop refused => exact .primitive ((hchain _).trans stop) refused
  | outside stop free absent =>
    refine .outside ((hchain _).trans stop) free (NameTable.get?_eq_none.mp ?_)
    rw [agree _ _ stop free]
    exact NameTable.get?_eq_none.mpr absent
  | cycle endless => exact .cycle fun hops => hchain hops ▸ endless hops

end Resolve

/-- A name is resolved to what its chain stops at.  A chain that comes back to no name stops,
however long it is, and what a table says of names that are not on the chain does not matter. -/
theorem resolve_iff_chain (aliases : AliasTable) (name : String) :
    (∀ result, aliases.resolve name = result ↔ aliases.Resolved name result) ∧
    ((∀ i j mid, i < j → aliases.chain name i = some mid → aliases.chain name j ≠ some mid) →
      aliases.resolve name ≠ .error (.aliasCycle name)) ∧
    ∀ other : AliasTable,
      (∀ hops mid, aliases.chain name hops = some mid → mid ∉ ScalarKind.primitives →
        other.get? mid = aliases.get? mid) →
      other.resolve name = aliases.resolve name := by
  have hresolved := resolved_resolve aliases name
  refine ⟨fun result => ⟨?_, hresolved.unique⟩, fun distinct hcycle => ?_, fun other agree => ?_⟩
  · rintro rfl
    exact hresolved
  · rw [hcycle] at hresolved
    rcases resolved_iff.mp hresolved with ⟨hops, last, -, -, hstop⟩ | ⟨endless, -⟩
    · exact stopsAt_ne_cycle name hops last hstop.symm
    · have hle := hops_le_size (endless (aliases.size + 1)) distinct
      omega
  · exact (resolved_resolve other name).unique (hresolved.congr agree)

/-- A chain through every alias of its table. -/
def ladder : AliasTable := .ofList [("C", "f32"), ("B", "C"), ("A", "B")]

/-- The ladder, with a name that is its own target, a name that leads there, and a kind's name. -/
def loopedLadder : AliasTable := .ofList
  [("Loop", "Loop"), ("Entry", "Loop"), ("A", "B"), ("f32", "Loop"), ("C", "f32"), ("B", "C")]

/-- The ladder is climbed to its end, also with the loop beside it; from the entry of the loop there
is no way out. -/
theorem resolve_iff_chain_ladder :
    ladder.Resolved "A" (.ok ⟨some "A", .f32⟩) ∧
      ladder.resolve "A" ≠ .error (.aliasCycle "A") ∧
      loopedLadder.resolve "A" = ladder.resolve "A" ∧
      loopedLadder.Resolved "Entry" (.error (.aliasCycle "Entry")) := by
  obtain ⟨hresolved, hcycle, hother⟩ := resolve_iff_chain ladder "A"
  obtain ⟨hlooped, -, -⟩ := resolve_iff_chain loopedLadder "Entry"
  have hend : ladder.chain "A" 4 = none := by decide
  refine ⟨(hresolved _).mp (by decide), hcycle fun i j mid hlt hi hj => ?_,
    hother loopedLadder fun hops mid hmid free => ?_, (hlooped _).mp (by decide)⟩
  · exact chain_ne_none_of_repeat hlt hi hj 4 hend
  · match hops, hmid with
    | 0, rfl => decide
    | 1, rfl => decide
    | 2, rfl => decide
    | 3, rfl => exact absurd (by decide) free
    | hops + 4, hmid =>
      have hgoing : ladder.chain "A" (hops + 4) ≠ none := by simp [hmid]
      exact absurd hend (chain_ne_none_of_le (Nat.le_add_left 4 hops) hgoing)

end AliasTable

end WireCodec
