import Mathlib.Data.List.Basic

/-!
# Lists of fallible results

`mapM` in `Except`: it is ok when every result is, and it depends on the results of the elements only.
A `lookup` that succeeds finds an entry of the list.
-/

namespace SonarJavascript.ListResults

variable {ε α β : Type} {f g : α → Except ε β} {l : List α}

theorem mapM_congr (h : ∀ a ∈ l, f a = g a) : l.mapM f = l.mapM g := by
  induction l with
  | nil => rfl
  | cons a rest ih =>
    rw [List.mapM_cons, List.mapM_cons, h a (by simp), ih fun b hb => h b (by simp [hb])]

theorem mapM_eq_ok {k : α → β} (h : ∀ a ∈ l, f a = .ok (k a)) : l.mapM f = .ok (l.map k) := by
  rw [mapM_congr h]
  exact List.mapM_pure

@[simp]
theorem ok_bind {γ : Type} (a : α) (k : α → Except ε γ) : (Except.ok a >>= k) = k a :=
  rfl

@[simp]
theorem error_bind {γ : Type} (e : ε) (k : α → Except ε γ) : (Except.error e >>= k) = .error e :=
  rfl

theorem isOk_bind {γ : Type} (x : Except ε α) (k : α → Except ε γ) :
    (x >>= k).isOk = true ↔ ∃ a, x = .ok a ∧ (k a).isOk = true := by
  cases x with
  | error e => simp [bind, Except.bind, Except.toBool]
  | ok a => simp [bind, Except.bind]

theorem isOk_bind_pure {γ : Type} (x : Except ε α) (k : α → γ) :
    (do return k (← x)).isOk = true ↔ x.isOk = true := by
  cases x with
  | error e => rfl
  | ok a => rfl

theorem exists_of_bind_ok {γ : Type} {x : Except ε α} {k : α → Except ε γ} {c : γ}
    (h : x >>= k = .ok c) : ∃ a, x = .ok a ∧ k a = .ok c := by
  cases x with
  | error e => cases h
  | ok a => exact ⟨a, rfl, h⟩

theorem isOk_iff {x : Except ε α} : x.isOk = true ↔ ∃ a, x = .ok a := by
  cases x with
  | error e => simp [Except.toBool]
  | ok a => simp [Except.toBool]

theorem isOk_mapM : (l.mapM f).isOk = true ↔ ∀ a ∈ l, (f a).isOk = true := by
  induction l with
  | nil => simp [pure, Except.pure, Except.toBool]
  | cons a rest ih =>
    rw [List.mapM_cons, isOk_bind, List.forall_mem_cons, ← ih, isOk_iff]
    constructor
    · rintro ⟨b, hb, hrest⟩
      obtain ⟨bs, hbs, -⟩ := (isOk_bind _ _).mp hrest
      exact ⟨⟨b, hb⟩, isOk_iff.mpr ⟨bs, hbs⟩⟩
    · rintro ⟨⟨b, hb⟩, hrest⟩
      obtain ⟨bs, hbs⟩ := isOk_iff.mp hrest
      exact ⟨b, hb, (isOk_bind _ _).mpr ⟨bs, hbs, rfl⟩⟩

theorem exists_of_mem_mapM {l' : List β} (h : l.mapM f = .ok l') {b : β} (hb : b ∈ l') :
    ∃ a ∈ l, f a = .ok b := by
  induction l generalizing l' with
  | nil =>
    obtain rfl : l' = [] := by simpa [pure, Except.pure] using h.symm
    exact absurd hb List.not_mem_nil
  | cons a l ih =>
    rw [List.mapM_cons] at h
    cases ha : f a with
    | error e => rw [ha] at h; cases h
    | ok b' =>
      rw [ha] at h
      cases hl : l.mapM f with
      | error e => rw [hl] at h; cases h
      | ok rest =>
        rw [hl] at h
        obtain rfl : b' :: rest = l' := Except.ok.inj h
        rcases List.mem_cons.mp hb with rfl | hb
        · exact ⟨a, List.mem_cons_self, ha⟩
        · obtain ⟨x, hx, hfx⟩ := ih hl hb
          exact ⟨x, List.mem_cons_of_mem _ hx, hfx⟩

theorem exists_of_map_ok {x : Except ε α} {g : α → β} {b : β} (h : x.map g = .ok b) :
    ∃ a, x = .ok a ∧ g a = b := by
  cases x with
  | error e => cases h
  | ok a => exact ⟨a, rfl, Except.ok.inj h⟩

theorem mem_of_lookup {κ ν : Type} [BEq κ] [LawfulBEq κ] {entries : List (κ × ν)} {key : κ} {value : ν}
    (h : entries.lookup key = some value) : (key, value) ∈ entries := by
  obtain ⟨before, after, rfl, -⟩ := List.lookup_eq_some_iff.mp h
  simp

end SonarJavascript.ListResults
