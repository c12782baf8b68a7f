/-!
# Tables keyed by name

A `NameTable` keeps one value per name in the order in which the names first came.  Setting a name
again replaces its value in place.  `get?_set` and `names_set` describe `set` by what can be looked
up and by the order of the names.
-/

namespace WireCodec

/-- Sets a name in a list of entries, in place when the name is there. -/
def setEntry {α : Type} (name : String) (value : α) : List (String × α) → List (String × α)
  | [] => [(name, value)]
  | (n, v) :: rest => if n = name then (n, value) :: rest else (n, v) :: setEntry name value rest

theorem names_setEntry {α : Type} (name : String) (value : α) (entries : List (String × α)) :
    (setEntry name value entries).map Prod.fst =
      if name ∈ entries.map Prod.fst then entries.map Prod.fst
      else entries.map Prod.fst ++ [name] := by
  induction entries with
  | nil => simp [setEntry]
  | cons e rest ih =>
    obtain ⟨n, v⟩ := e
    by_cases h : n = name
    · simp [setEntry, h]
    · have h' : ¬ name = n := fun e => h e.symm
      simp only [setEntry, if_neg h, List.map_cons, ih, List.mem_cons, h', false_or]
      split <;> simp

/-- Values by name, in the order in which the names first came. -/
structure NameTable (α : Type) where
  entries : List (String × α)
  /-- No name comes twice. -/
  distinct : (entries.map Prod.fst).Nodup

namespace NameTable

variable {α : Type}

def empty : NameTable α := ⟨[], List.nodup_nil⟩

instance : Inhabited (NameTable α) := ⟨empty⟩

def names (t : NameTable α) : List String := t.entries.map Prod.fst

def size (t : NameTable α) : Nat := t.entries.length

def get? (t : NameTable α) (name : String) : Option α :=
  (t.entries.find? (·.1 = name)).map Prod.snd

/-- Gives a name a value, at the end when the name is new. -/
def set (t : NameTable α) (name : String) (value : α) : NameTable α where
  entries := setEntry name value t.entries
  distinct := by
    rw [names_setEntry]
    split
    · exact t.distinct
    · rename_i h
      exact List.nodup_append.mpr ⟨t.distinct, by simp, by
        rintro a ha b hb rfl
        rw [List.mem_singleton] at hb
        exact h (hb ▸ ha)⟩

def ofList (entries : List (String × α)) : NameTable α :=
  entries.foldl (fun t e => t.set e.1 e.2) empty

@[ext] theorem ext {s t : NameTable α} (h : s.entries = t.entries) : s = t := by
  cases s
  cases t
  cases h
  rfl

@[simp] theorem get?_empty (name : String) : (empty : NameTable α).get? name = none := rfl

@[simp] theorem names_empty : (empty : NameTable α).names = [] := rfl

@[simp] theorem names_set (t : NameTable α) (name : String) (value : α) :
    (t.set name value).names = if name ∈ t.names then t.names else t.names ++ [name] :=
  names_setEntry name value t.entries

theorem mem_names_set {t : NameTable α} {name : String} (h : name ∈ t.names) (other : String)
    (value : α) : name ∈ (t.set other value).names := by
  rw [names_set]
  split
  · exact h
  · exact List.mem_append_left _ h

/-- Setting entries one after another adds their names. -/
theorem mem_names_foldl_set {entries : List (String × α)} {t : NameTable α} {name : String} :
    name ∈ (entries.foldl (fun t e => t.set e.1 e.2) t).names ↔
      name ∈ t.names ∨ name ∈ entries.map Prod.fst := by
  induction entries generalizing t with
  | nil => simp
  | cons e rest ih =>
    have hset : name ∈ (t.set e.1 e.2).names ↔ name ∈ t.names ∨ name = e.1 := by
      rw [names_set]
      split
      · rename_i hmem
        refine ⟨.inl, fun h => ?_⟩
        rcases h with h | rfl
        · exact h
        · exact hmem
      · simp
    rw [List.foldl_cons, ih, hset, List.map_cons, List.mem_cons, or_assoc]

/-- A name set is looked up as its new value, and no other name changes. -/
theorem get?_set (t : NameTable α) (name other : String) (value : α) :
    (t.set name value).get? other = if other = name then some value else t.get? other := by
  have key (l : List (String × α)) :
      ((setEntry name value l).find? (·.1 = other)).map Prod.snd =
        if other = name then some value else (l.find? (·.1 = other)).map Prod.snd := by
    induction l with
    | nil =>
      by_cases h : other = name
      · simp [setEntry, h]
      · have h' : ¬ name = other := fun e => h e.symm
        simp [setEntry, h, h']
    | cons e rest ih =>
      obtain ⟨n, v⟩ := e
      by_cases hn : n = name
      · subst hn
        by_cases h : other = n
        · simp [setEntry, h]
        · have h' : ¬ n = other := fun e => h e.symm
          simp [setEntry, h, h']
      · simp only [setEntry, if_neg hn, List.find?_cons]
        by_cases ho : n = other
        · have h : ¬ other = name := fun e => hn (ho.trans e)
          simp [ho, h]
        · simp [ho, ih]
  exact key t.entries

@[simp] theorem get?_set_self (t : NameTable α) (name : String) (value : α) :
    (t.set name value).get? name = some value := by
  rw [get?_set, if_pos rfl]

/-- A name has a value exactly when it is one of the names. -/
theorem isSome_get? (t : NameTable α) (name : String) :
    (t.get? name).isSome = true ↔ name ∈ t.names := by
  simp only [get?, names, Option.isSome_map, List.find?_isSome, List.mem_map, decide_eq_true_eq]

/-- A name has no value exactly when it is none of the names. -/
theorem get?_eq_none {t : NameTable α} {name : String} : t.get? name = none ↔ name ∉ t.names := by
  rw [← isSome_get?, Bool.not_eq_true, Option.isSome_eq_false_iff, Option.isNone_iff_eq_none]

/-- The value of an entry is found by its name. -/
theorem get?_of_mem {t : NameTable α} {name : String} {value : α} (h : (name, value) ∈ t.entries) :
    t.get? name = some value := by
  have key (l : List (String × α)) (hl : (l.map Prod.fst).Nodup) (hm : (name, value) ∈ l) :
      (l.find? (·.1 = name)).map Prod.snd = some value := by
    induction l with
    | nil => cases hm
    | cons e rest ih =>
      rw [List.map_cons, List.nodup_cons] at hl
      rcases List.mem_cons.mp hm with rfl | hm
      · simp
      · have hne : e.1 ≠ name := by
          rintro rfl
          exact hl.1 (List.mem_map.mpr ⟨_, hm, rfl⟩)
        rw [List.find?_cons, decide_eq_false hne]
        exact ih hl.2 hm
  exact key t.entries t.distinct h

/-- Settings that are all as they should be leave a table as it should be. -/
theorem get?_foldl_set {good : String → α → Prop} {entries : List (String × α)} {t : NameTable α}
    (ht : ∀ name value, t.get? name = some value → good name value)
    (hentries : ∀ e ∈ entries, good e.1 e.2) {name : String} {value : α}
    (h : (entries.foldl (fun t e => t.set e.1 e.2) t).get? name = some value) :
    good name value := by
  induction entries generalizing t with
  | nil => exact ht name value h
  | cons e rest ih =>
    have hset : ∀ name value, (t.set e.1 e.2).get? name = some value → good name value := by
      intro other value hother
      rw [get?_set] at hother
      split at hother
      · rename_i hsame
        rw [hsame, ← Option.some.inj hother]
        exact hentries e (List.mem_cons_self ..)
      · exact ht other value hother
    exact ih hset (fun d hd => hentries d (List.mem_cons_of_mem e hd)) h

/-- In a table of entries whose values are settled by their names, each name has its value. -/
theorem get?_ofList {entries : List (String × α)} (value : String → α)
    (h : ∀ e ∈ entries, e.2 = value e.1) (name : String) :
    (ofList entries).get? name =
      if name ∈ entries.map Prod.fst then some (value name) else none := by
  have hnames : name ∈ (ofList entries).names ↔ name ∈ entries.map Prod.fst :=
    mem_names_foldl_set.trans (by simp)
  split
  · rename_i hmem
    obtain ⟨found, hfound⟩ := Option.isSome_iff_exists.mp ((isSome_get? _ _).mpr (hnames.mpr hmem))
    have hvalue : found = value name :=
      @get?_foldl_set α (fun name found => found = value name) entries empty
        (fun _ _ hempty => by cases hempty) h name found hfound
    rw [hfound, hvalue]
  · rename_i hmem
    exact get?_eq_none.mpr (mt hnames.mp hmem)

/-- Looking up every name gives the entries back. -/
theorem map_get?_names [Inhabited α] (t : NameTable α) :
    t.names.map (fun name => (name, (t.get? name).getD default)) = t.entries := by
  rw [names, List.map_map]
  refine (List.map_congr_left ?_).trans (List.map_id _)
  rintro ⟨name, value⟩ he
  rw [Function.comp_apply, get?_of_mem he]
  rfl

/-- Of two settings of a name the later one counts. -/
@[simp] theorem set_set (t : NameTable α) (name : String) (first second : α) :
    (t.set name first).set name second = t.set name second := by
  have key (l : List (String × α)) :
      setEntry name second (setEntry name first l) = setEntry name second l := by
    induction l with
    | nil => simp [setEntry]
    | cons e rest ih =>
      obtain ⟨n, v⟩ := e
      by_cases h : n = name
      · simp [setEntry, h]
      · simp [setEntry, h, ih]
  exact ext (key t.entries)

/-- Giving a name the value that it has changes nothing. -/
theorem set_get? {t : NameTable α} {name : String} {value : α} (h : t.get? name = some value) :
    t.set name value = t := by
  have key (l : List (String × α)) (hl : (l.find? (·.1 = name)).map Prod.snd = some value) :
      setEntry name value l = l := by
    induction l with
    | nil => cases hl
    | cons e rest ih =>
      obtain ⟨n, v⟩ := e
      by_cases hn : n = name
      · simp only [List.find?_cons, hn, decide_true, Option.map_some, Option.some.injEq] at hl
        simp [setEntry, hn, hl]
      · simp only [List.find?_cons, hn, decide_false] at hl
        simp [setEntry, hn, ih hl]
  exact ext (key t.entries h)

/-- A new name goes behind the others. -/
theorem entries_set_of_not_mem {t : NameTable α} {name : String} (h : name ∉ t.names) (value : α) :
    (t.set name value).entries = t.entries ++ [(name, value)] := by
  have key (l : List (String × α)) (hl : name ∉ l.map Prod.fst) :
      setEntry name value l = l ++ [(name, value)] := by
    induction l with
    | nil => rfl
    | cons e rest ih =>
      obtain ⟨n, v⟩ := e
      rw [List.map_cons, List.mem_cons, not_or] at hl
      have hn : ¬ n = name := fun e => hl.1 e.symm
      simp [setEntry, hn, ih hl.2]
  exact key t.entries h

/-- A table is made of its own entries. -/
@[simp] theorem ofList_entries (t : NameTable α) : ofList t.entries = t := by
  -- The entries behind those of `s` are put behind them one by one.
  have key (l : List (String × α)) (s : NameTable α)
      (h : ((s.entries ++ l).map Prod.fst).Nodup) :
      (l.foldl (fun t e => t.set e.1 e.2) s).entries = s.entries ++ l := by
    induction l generalizing s with
    | nil => simp
    | cons e rest ih =>
      have hnew : e.1 ∉ s.names := by
        rw [List.map_append, List.map_cons, List.nodup_append] at h
        exact fun hm => h.2.2 _ hm _ (List.mem_cons_self ..) rfl
      have hset := entries_set_of_not_mem hnew e.2
      rw [List.foldl_cons, ih _ (by simpa [hset] using h), hset]
      simp
  exact ext (key t.entries empty (by simpa [empty] using t.distinct))

end NameTable

end WireCodec
