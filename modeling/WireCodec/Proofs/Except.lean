/-!
# Runs that may fail

A run that may fail is opened at its binds: it goes on with the value of a part that succeeds and
ends in the first failure.
-/

namespace WireCodec

variable {ε α β : Type}

theorem ok_bind (a : α) (f : α → Except ε β) : (Except.ok a >>= f) = f a := rfl

theorem error_bind (e : ε) (f : α → Except ε β) : (Except.error e >>= f) = .error e := rfl

/-- Two pieces of work succeed exactly if both do, one behind the other. -/
theorem bind_eq_ok {x : Except ε α} {f : α → Except ε β} {b : β} :
    (x >>= f) = .ok b ↔ ∃ a, x = .ok a ∧ f a = .ok b := by
  cases x with
  | error e => simp [error_bind]
  | ok a => simp [ok_bind]

theorem bind_eq_error {x : Except ε α} {f : α → Except ε β} {e : ε} :
    (x >>= f) = .error e ↔ x = .error e ∨ ∃ a, x = .ok a ∧ f a = .error e := by
  cases x with
  | error d => simp [error_bind]
  | ok a => simp [ok_bind]

theorem mapError_eq_ok {ε' : Type} {x : Except ε α} {f : ε → ε'} {a : α} :
    x.mapError f = .ok a ↔ x = .ok a := by
  cases x with
  | error e => exact ⟨fun h => (by cases h), fun h => (by cases h)⟩
  | ok b =>
    have hok : (Except.ok b : Except ε α).mapError f = .ok b := rfl
    rw [hok, Except.ok.injEq, Except.ok.injEq]

/-- Work that succeeds on every item gives the results in the order of the items. -/
theorem mapM_eq_ok {f : α → Except ε β} {g : α → β} {items : List α}
    (h : ∀ a ∈ items, f a = .ok (g a)) : items.mapM f = .ok (items.map g) := by
  induction items with
  | nil => rfl
  | cons a rest ih =>
    have ha := h a (List.mem_cons_self ..)
    have hrest := ih fun b hb => h b (List.mem_cons_of_mem a hb)
    rw [List.mapM_cons, ha, ok_bind, hrest]
    rfl

/-- Checks of every item succeed together only when each of them does. -/
theorem forM_eq_ok {f : α → Except ε PUnit} {items : List α} (h : items.forM f = .ok ()) :
    ∀ a ∈ items, f a = .ok () := by
  induction items with
  | nil => simp
  | cons a rest ih =>
    change (f a >>= fun _ => rest.forM f) = .ok () at h
    obtain ⟨⟨⟩, ha, hrest⟩ := bind_eq_ok.mp h
    intro b hb
    rcases List.mem_cons.mp hb with rfl | hb
    · exact ha
    · exact ih hrest b hb

theorem forM_eq_ok_iff {f : α → Except ε PUnit} {items : List α} :
    items.forM f = .ok () ↔ ∀ a ∈ items, f a = .ok () := by
  refine ⟨forM_eq_ok, fun h => ?_⟩
  induction items with
  | nil => rfl
  | cons a rest ih =>
    show (f a >>= fun _ => rest.forM f) = .ok ()
    rw [h a (List.mem_cons_self ..), ok_bind]
    exact ih fun b hb => h b (List.mem_cons_of_mem a hb)

def unlessFault (fault : Option ε) (value : α) : Except ε α :=
  match fault with
  | some e => .error e
  | none => .ok value

/-- Work on every item ends in the first fault of an item. -/
theorem mapM_unlessFault {f : α → Except ε β} {fault : α → Option ε} {g : α → β}
    (h : ∀ a, f a = unlessFault (fault a) (g a)) (items : List α) :
    items.mapM f = unlessFault (items.findSome? fault) (items.map g) := by
  induction items with
  | nil => rfl
  | cons a rest ih =>
    rw [List.mapM_cons, h, ih, List.findSome?_cons]
    cases fault a with
    | some e => rfl
    | none =>
      cases rest.findSome? fault <;> rfl

/-! ## How a run ends -/

/-- A run ends with a value of one sort or with an error of another. -/
def Ends (x : Except ε α) (good : α → Prop) (bad : ε → Prop) : Prop :=
  match x with
  | .ok a => good a
  | .error e => bad e

namespace Ends

variable {good : α → Prop} {bad : ε → Prop}

/-- How two pieces of work end, from how each ends. -/
theorem bind {x : Except ε α} {f : α → Except ε β} {result : β → Prop} (hx : Ends x good bad)
    (hf : ∀ a, good a → Ends (f a) result bad) : Ends (x >>= f) result bad := by
  cases x with
  | error e => exact hx
  | ok a => exact hf a hx

theorem mono {x : Except ε α} {good' : α → Prop} {bad' : ε → Prop} (hx : Ends x good bad)
    (hgood : ∀ a, good a → good' a) (hbad : ∀ e, bad e → bad' e) : Ends x good' bad' := by
  cases x with
  | error e => exact hbad e hx
  | ok a => exact hgood a hx

/-- What every item preserves holds at the end of a pass over them. -/
theorem foldlM {f : α → β → Except ε α} {items : List β}
    (h : ∀ a, ∀ b ∈ items, good a → Ends (f a b) good bad) {a : α} (ha : good a) :
    Ends (items.foldlM f a) good bad := by
  induction items generalizing a with
  | nil => exact ha
  | cons b rest ih =>
    rw [List.foldlM_cons]
    exact (h a b (List.mem_cons_self ..) ha).bind fun a' ha' =>
      ih (fun a c hc => h a c (List.mem_cons_of_mem b hc)) ha'

/-- Work on items gives as many results as there are items, if it ends well on all of them. -/
theorem mapM {f : β → Except ε α} {items : List β} (h : ∀ b ∈ items, Ends (f b) good bad) :
    Ends (items.mapM f) (fun results => results.length = items.length) bad := by
  induction items with
  | nil => rfl
  | cons b rest ih =>
    rw [List.mapM_cons]
    have hrest := ih fun c hc => h c (List.mem_cons_of_mem b hc)
    refine (h b (List.mem_cons_self ..)).bind fun a _ => hrest.bind fun results hlength => ?_
    exact congrArg Nat.succ hlength

end Ends

end WireCodec
