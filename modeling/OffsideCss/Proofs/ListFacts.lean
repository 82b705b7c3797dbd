import Mathlib.Data.List.Forall2

/-! Facts about lists, whatever they are lists of: where the parts of an append meet, what a fold that
may fail carries along, and lists that are related one by one. -/

namespace OffsideCss

/-! ### Parts of a list -/

section Parts

variable {α : Type} {u v a b : List α} {x : α}

/-- Where an element of an append stands: in the second part, or in the first one. -/
theorem append_eq_append_cons (h : u ++ v = a ++ x :: b) :
    (∃ w, a = u ++ w ∧ v = w ++ x :: b) ∨ ∃ w, u = a ++ x :: w ∧ b = w ++ v := by
  rcases List.append_eq_append_iff.1 h with ⟨w, ha, hv⟩ | ⟨w, hu, hv⟩
  · exact .inl ⟨w, ha, hv⟩
  · rcases List.cons_eq_append_iff.1 hv with ⟨rfl, hv⟩ | ⟨w, rfl, hb⟩
    · exact .inl ⟨[], by simpa using hu.symm, hv.symm⟩
    · exact .inr ⟨w, hu, hb⟩

theorem getLast?_suffix (h : u <:+ v) (hne : u ≠ []) : u.getLast? = v.getLast? := by
  obtain ⟨front, rfl⟩ := h
  rw [List.getLast?_append_of_ne_nil _ hne]

end Parts

/-! ### Folds that may fail -/

/-- What is true of the state before the first item, and stays true of the items so far and the state
behind them with each item that is taken, is true behind all of them. -/
theorem invariant_of_foldlM {ε σ α : Type} {f : σ → α → Except ε σ} {P : List α → σ → Prop} {s s' : σ}
    {as : List α} (hs : P [] s)
    (hstep : ∀ pre, ∀ a ∈ as, ∀ s₁ s₂, P pre s₁ → f s₁ a = .ok s₂ → P (pre ++ [a]) s₂)
    (hf : as.foldlM f s = .ok s') : P as s' := by
  induction as generalizing s P with
  | nil =>
    obtain rfl := Except.ok.inj hf
    exact hs
  | cons a as ih =>
    rw [List.foldlM_cons] at hf
    cases ha : f s a with
    | error e => simp [ha, bind, Except.bind] at hf
    | ok s₁ =>
      rw [ha] at hf
      refine ih (P := fun pre => P (a :: pre)) (hstep [] a List.mem_cons_self s s₁ hs ha) ?_ hf
      exact fun pre b hb => hstep (a :: pre) b (List.mem_cons_of_mem a hb)

/-! ### Lists that are related one by one -/

section Forall₂

variable {α β γ : Type} {R : α → β → Prop} {as : List α} {bs : List β} {p : α → Bool} {q : β → Bool}

/-- What stands before and behind one of two lists that are related one by one, in the other one. -/
theorem exists_split_of_forall₂ {pre post : List β} {b : β}
    (h : List.Forall₂ R as (pre ++ b :: post)) : ∃ as₁ a as₂, as = as₁ ++ a :: as₂ ∧
      List.Forall₂ R as₁ pre ∧ R a b ∧ List.Forall₂ R as₂ post := by
  obtain ⟨a, as₂, hab, hpost, hdrop⟩ :=
    List.forall₂_cons_right_iff.1 (List.forall₂_drop_append _ _ _ h)
  exact ⟨_, a, as₂, by rw [← hdrop, List.take_append_drop], List.forall₂_take_append _ _ _ h, hab,
    hpost⟩

theorem exists_mem_of_forall₂ (h : List.Forall₂ R as bs) {b : β} (hb : b ∈ bs) : ∃ a ∈ as, R a b := by
  obtain ⟨pre, post, rfl⟩ := List.append_of_mem hb
  obtain ⟨as₁, a, as₂, rfl, -, hab, -⟩ := exists_split_of_forall₂ h
  exact ⟨a, by simp, hab⟩

theorem forall₂_of_common {P : γ → α → Prop} {Q : γ → β → Prop} {cs : List γ}
    (h : List.Forall₂ P cs as) (h' : List.Forall₂ Q cs bs) :
    List.Forall₂ (fun a b => ∃ c, P c a ∧ Q c b) as bs := by
  induction h generalizing bs with
  | nil =>
    cases h'
    exact .nil
  | cons hr _ ih =>
    cases h' with
    | cons hs hrest => exact .cons ⟨_, hr, hs⟩ (ih hrest)

theorem exists_forall₂ {R : α → γ → Prop} {S : γ → β → Prop}
    (h : List.Forall₂ (fun a b => ∃ c, R a c ∧ S c b) as bs) :
    ∃ cs, List.Forall₂ R as cs ∧ List.Forall₂ S cs bs := by
  induction h with
  | nil => exact ⟨[], .nil, .nil⟩
  | cons hab _ ih =>
    obtain ⟨c, hac, hcb⟩ := hab
    obtain ⟨cs, has, hbs⟩ := ih
    exact ⟨c :: cs, .cons hac has, .cons hcb hbs⟩

theorem forall₂_mem (h : List.Forall₂ R as bs) :
    List.Forall₂ (fun a b => a ∈ as ∧ b ∈ bs ∧ R a b) as bs := by
  induction h with
  | nil => exact .nil
  | cons hab _ ih =>
    refine .cons ⟨List.mem_cons_self, List.mem_cons_self, hab⟩ (ih.imp ?_)
    rintro a b ⟨ha, hb, h⟩
    exact ⟨List.mem_cons_of_mem _ ha, List.mem_cons_of_mem _ hb, h⟩

theorem forall₂_takeWhile (h : List.Forall₂ R as bs) (hp : ∀ {a b}, R a b → q b = p a) :
    List.Forall₂ R (as.takeWhile p) (bs.takeWhile q) := by
  induction h with
  | nil => exact .nil
  | cons hab _ ih =>
    rw [List.takeWhile_cons, List.takeWhile_cons, hp hab]
    split
    · exact .cons hab ih
    · exact .nil

theorem forall₂_dropWhile (h : List.Forall₂ R as bs) (hp : ∀ {a b}, R a b → q b = p a) :
    List.Forall₂ R (as.dropWhile p) (bs.dropWhile q) := by
  induction h with
  | nil => exact .nil
  | cons hab hrest ih =>
    rw [List.dropWhile_cons, List.dropWhile_cons, hp hab]
    split
    · exact ih
    · exact .cons hab hrest

theorem forall₂_find? (h : List.Forall₂ R as bs) (hp : ∀ {a b}, R a b → q b = p a) :
    Option.Rel R (as.find? p) (bs.find? q) := by
  induction h with
  | nil => exact .none
  | cons hab _ ih =>
    rw [List.find?_cons, List.find?_cons, hp hab]
    split
    · exact .some hab
    · exact ih

theorem forall₂_getElem? (h : List.Forall₂ R as bs) (n : Nat) : Option.Rel R as[n]? bs[n]? := by
  induction h generalizing n with
  | nil => exact .none
  | cons hab _ ih =>
    cases n with
    | zero => exact .some hab
    | succ n => exact ih n

theorem forall₂_set (h : List.Forall₂ R as bs) (n : Nat) {a : α} {b : β} (hab : R a b) :
    List.Forall₂ R (as.set n a) (bs.set n b) := by
  induction h generalizing n with
  | nil => exact .nil
  | cons hcd hrest ih =>
    cases n with
    | zero => exact .cons hab hrest
    | succ n => exact .cons hcd (ih n)

theorem rel_cases {x : Option α} {y : Option β} (h : Option.Rel R x y) :
    (x = none ∧ y = none) ∨ ∃ a b, x = some a ∧ y = some b ∧ R a b := by
  cases h with
  | none => exact .inl ⟨rfl, rfl⟩
  | some h => exact .inr ⟨_, _, rfl, rfl, h⟩

theorem eq_map_of_forall₂ {f : α → β} (hf : ∀ a b, R a b → b = f a) (h : List.Forall₂ R as bs) :
    bs = as.map f := by
  have heq := List.forall₂_map_left_iff.2 (h.imp fun a b hab => (hf a b hab).symm)
  rw [List.forall₂_eq_eq_eq] at heq
  exact heq.symm

theorem eq_map_of_rel {f : α → β} (hf : ∀ a b, R a b → b = f a) {x : Option α} {y : Option β}
    (h : Option.Rel R x y) : y = x.map f := by
  cases h with
  | none => rfl
  | some h => rw [hf _ _ h, Option.map_some]

end Forall₂

end OffsideCss
