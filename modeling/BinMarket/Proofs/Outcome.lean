import Mathlib.Data.List.Forall2

/-!
Calculations that end with a value or a fault. One of several steps ends with a value exactly if each
of its steps does.
-/

namespace BinMarket

variable {ε α β γ : Type} {x : Except ε α} {f : α → Except ε β} {g : α → β} {xs : List α}
  {ys : List β} {b : β}

theorem bind_eq_ok_iff {f : α → Except ε β} :
    x >>= f = .ok b ↔ ∃ a, x = .ok a ∧ f a = .ok b := by
  cases x
  case error => exact ⟨nofun, nofun⟩
  case ok a  => exact ⟨fun h => ⟨a, rfl, h⟩, fun ⟨_, ha, h⟩ => by cases ha; exact h⟩

theorem bind_eq_error_iff {e : ε} {f : α → Except ε β} :
    x >>= f = .error e ↔ x = .error e ∨ ∃ a, x = .ok a ∧ f a = .error e := by
  cases x
  case error =>
    constructor
    case mp  => exact fun h => .inl (congrArg Except.error (Except.error.inj h))
    case mpr => exact fun h => congrArg Except.error (Except.error.inj (h.resolve_right nofun))
  case ok a =>
    constructor
    case mp  => exact fun h => .inr ⟨a, rfl, h⟩
    case mpr =>
      intro h
      obtain ⟨_, ha, h⟩ := h.resolve_left nofun
      cases ha
      exact h

theorem ok_ne_error {a : α} {e : ε} : (.ok a : Except ε α) ≠ .error e := nofun

-- A calculation that cannot fail in one way in any of its steps cannot fail in that way.
theorem bind_ne_error {e : ε} {f : α → Except ε β} (hx : x ≠ .error e)
    (hf : ∀ a, x = .ok a → f a ≠ .error e) : x >>= f ≠ .error e := by
  intro h
  obtain he | ⟨a, ha, he⟩ := bind_eq_error_iff.mp h
  case inl => exact hx he
  case inr => exact hf a ha he

theorem exists_of_map_eq_ok (h : x.map g = .ok b) : ∃ a, x = .ok a ∧ g a = b := by
  cases x
  case error => cases h
  case ok a  => exact ⟨a, rfl, Except.ok.inj h⟩

-- Calculations whose values are changed into the same ones end with a value or a fault together.
theorem exists_eq_ok_iff_of_map_eq {y : Except ε γ} {k : γ → β} (h : x.map g = y.map k) :
    (∃ a, x = .ok a) ↔ ∃ c, y = .ok c := by
  constructor
  case mp =>
    intro ⟨a, ha⟩
    have ⟨c, hc, _⟩ := exists_of_map_eq_ok (h.symm.trans (congrArg (Except.map g) ha))
    exact ⟨c, hc⟩
  case mpr =>
    intro ⟨c, hc⟩
    have ⟨a, ha, _⟩ := exists_of_map_eq_ok (h.trans (congrArg (Except.map k) hc))
    exact ⟨a, ha⟩

theorem bind_map_eq (x : Except ε α) (g : α → β) (f : β → Except ε γ) :
    x.map g >>= f = x >>= fun a => f (g a) := by
  cases x <;> rfl

theorem map_bind_eq (x : Except ε α) (f : α → Except ε β) (g : β → γ) :
    (x >>= f).map g = x >>= fun a => (f a).map g := by
  cases x <;> rfl

theorem mapM_eq_ok_iff : xs.mapM f = .ok ys ↔ xs.Forall₂ (fun x y => f x = .ok y) ys := by
  induction xs generalizing ys
  case nil          => cases ys <;> simp [pure, Except.pure]
  case cons x xs hi =>
    rw [List.mapM_cons, bind_eq_ok_iff, List.forall₂_cons_left_iff]
    constructor
    case mp =>
      intro ⟨y, hy, hr⟩
      have ⟨ys', hys, he⟩ := bind_eq_ok_iff.mp hr
      exact ⟨y, ys', hy, hi.mp hys, (Except.ok.inj he).symm⟩
    case mpr =>
      intro ⟨y, ys', hy, hys, he⟩
      exact ⟨y, hy, bind_eq_ok_iff.mpr ⟨ys', hi.mpr hys, congrArg _ he.symm⟩⟩

-- Of two lists that are related entry by entry, each entry has one that it is related to.
theorem exists_of_mem_forall₂ {R : α → β → Prop} {y : β} (h : xs.Forall₂ R ys) (hy : y ∈ ys) :
    ∃ x ∈ xs, R x y := by
  induction h
  case nil           => contradiction
  case cons hx _ hi =>
    cases hy
    case head    => exact ⟨_, List.mem_cons_self, hx⟩
    case tail hy =>
      have ⟨x, hm, hx⟩ := hi hy
      exact ⟨x, List.mem_cons_of_mem _ hm, hx⟩

-- What relates the results that two steps have for each entry relates the lists of them.
theorem forall₂_of_mapM {f' : α → Except ε γ} {zs : List γ} {R : β → γ → Prop}
    (h : ∀ x ∈ xs, ∀ y z, f x = .ok y → f' x = .ok z → R y z) (hy : xs.mapM f = .ok ys)
    (hz : xs.mapM f' = .ok zs) : ys.Forall₂ R zs := by
  rw [mapM_eq_ok_iff] at hy hz
  induction hy generalizing zs
  case nil             =>
    cases hz
    exact .nil
  case cons x _ _ _ hx _ hi =>
    cases hz
    case cons hx' hz =>
    exact .cons (h x List.mem_cons_self _ _ hx hx')
      (hi (fun x hm => h x (List.mem_cons_of_mem _ hm)) hz)

theorem exists_mapM (h : ∀ x ∈ xs, ∃ y, f x = .ok y) : ∃ ys, xs.mapM f = .ok ys := by
  induction xs
  case nil          => exact ⟨[], rfl⟩
  case cons x xs hi =>
    have ⟨y, hy⟩ := h x List.mem_cons_self
    have ⟨ys, hys⟩ := hi fun x hx => h x (List.mem_cons_of_mem _ hx)
    exact ⟨y :: ys, mapM_eq_ok_iff.mpr (.cons hy (mapM_eq_ok_iff.mp hys))⟩

theorem mapM_ne_error {e : ε} (h : ∀ x ∈ xs, f x ≠ .error e) : xs.mapM f ≠ .error e := by
  induction xs
  case nil          => nofun
  case cons x xs hi =>
    rw [List.mapM_cons]
    refine bind_ne_error (h x List.mem_cons_self) fun y _ => ?_
    exact bind_ne_error (hi fun x hx => h x (List.mem_cons_of_mem _ hx)) fun _ _ => nofun

-- A list of steps in a row ends with the fault of the first of them that has one.
theorem mapM_eq_error_iff {R : α → α → Prop} [Std.Asymm R] {e : ε} (h : xs.Pairwise R) :
    xs.mapM f = .error e ↔ ∃ x ∈ xs, f x = .error e ∧ ∀ y ∈ xs, R y x → ∃ b, f y = .ok b := by
  induction h
  case nil => simp [pure, Except.pure]
  case cons x xs hx _ hi =>
    rw [List.mapM_cons, bind_eq_error_iff]
    constructor
    case mp =>
      intro h
      cases h
      case inl he =>
        refine ⟨x, List.mem_cons_self, he, fun y hy hr => ?_⟩
        cases hy
        case head    => exact absurd hr (Std.Asymm.asymm x x hr)
        case tail hy => exact absurd hr (Std.Asymm.asymm x y (hx y hy))
      case inr hr =>
        obtain ⟨b, hb, he⟩ := hr
        have ⟨y, hy, hfy, hbefore⟩ := hi.mp ((bind_eq_error_iff.mp he).resolve_right nofun)
        refine ⟨y, List.mem_cons_of_mem _ hy, hfy, fun z hz hr => ?_⟩
        cases hz
        case head    => exact ⟨b, hb⟩
        case tail hz => exact hbefore z hz hr
    case mpr =>
      intro ⟨y, hy, hfy, hbefore⟩
      cases hy
      case head    => exact .inl hfy
      case tail hy =>
        have ⟨b, hb⟩ := hbefore x List.mem_cons_self (hx y hy)
        have hxs := hi.mpr ⟨y, hy, hfy, fun z hz => hbefore z (List.mem_cons_of_mem _ hz)⟩
        exact .inr ⟨b, hb, bind_eq_error_iff.mpr (.inl hxs)⟩

-- When each step gives what another step gives, changed in one way, so does the list of them.
theorem mapM_eq_map_of_mem {f' : α → Except ε γ} {k : β → γ} (h : ∀ x ∈ xs, f' x = (f x).map k) :
    xs.mapM f' = (xs.mapM f).map (·.map k) := by
  induction xs
  case nil          => rfl
  case cons x xs hi =>
    rw [List.mapM_cons, List.mapM_cons, h x List.mem_cons_self,
      hi fun x hx => h x (List.mem_cons_of_mem _ hx), bind_map_eq, map_bind_eq]
    refine congrArg (f x >>= ·) (funext fun y => ?_)
    rw [bind_map_eq, map_bind_eq]
    rfl

theorem mapM_eq_map {f' : α → Except ε γ} {k : β → γ} (h : ∀ x, f' x = (f x).map k) (xs : List α) :
    xs.mapM f' = (xs.mapM f).map (·.map k) :=
  mapM_eq_map_of_mem fun x _ => h x

end BinMarket
