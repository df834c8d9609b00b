import ByteVeil.Fallible.Moves

/-!
# Readers and the texts they read

A reader is a stateful computation that may fail. It replays when every one of its results has a text
from which it reads the same result again: behind any text, from any state that agrees with the one
it has started in.
-/

namespace Fallible

/-- `At s t v` says that `t` agrees with `s` and has the text `v` before it. Every result of `x` has a
text of the given kind from which `x` reads it again. -/
def Replays {ε σ ι α : Type} (At : σ → σ → List ι → Prop) (x : StateT σ (Except ε) α)
    (T : α → List ι → Prop) : Prop :=
  ∀ s a s', x s = .ok (a, s') →
    ∃ w, T a w ∧ ∀ t v, At s t (w ++ v) → ∃ t', x t = .ok (a, t') ∧ At s' t' v

variable {ε σ ι α β : Type} {At : σ → σ → List ι → Prop} {x : StateT σ (Except ε) α}

theorem replays_pure {a : α} {T : α → List ι → Prop} (h : T a []) :
    Replays At (pure a : StateT σ (Except ε) α) T := by
  intro s b s' hrun
  obtain ⟨rfl, rfl⟩ := Prod.mk.inj (Except.ok.inj hrun)
  exact ⟨[], h, fun t v ht => ⟨t, rfl, ht⟩⟩

theorem replays_throw (e : ε) {T : α → List ι → Prop} :
    Replays At (throw e : StateT σ (Except ε) α) T := by
  intro s a s' h
  simp [throw, throwThe, MonadExceptOf.throw, StateT.lift, bind, Except.bind] at h

/-- The text of a step stands before the text of the rest. -/
theorem Replays.bind {f : α → StateT σ (Except ε) β} {P : α → List ι → Prop}
    {T : β → List ι → Prop} (hx : Replays At x P)
    (hf : ∀ a w, P a w → Replays At (f a) fun b v => T b (w ++ v)) :
    Replays At (x >>= f) T := by
  intro s b s' h
  obtain ⟨a, m, ha, hb⟩ := stateT_bind_ok.1 h
  obtain ⟨w, hw, hfirst⟩ := hx s a m ha
  obtain ⟨u, hu, hrest⟩ := hf a w hw m b s' hb
  refine ⟨w ++ u, hu, fun t v ht => ?_⟩
  rw [List.append_assoc] at ht
  obtain ⟨t₁, hrun, ht₁⟩ := hfirst t (u ++ v) ht
  obtain ⟨t₂, hrun', ht₂⟩ := hrest t₁ v ht₁
  exact ⟨t₂, stateT_bind_ok.2 ⟨a, t₁, hrun, hrun'⟩, ht₂⟩

theorem Replays.mono {T T' : α → List ι → Prop} (h : Replays At x T)
    (himp : ∀ a w, T a w → T' a w) : Replays At x T' := by
  intro s a s' hrun
  obtain ⟨w, hw, hagain⟩ := h s a s' hrun
  exact ⟨w, himp a w hw, hagain⟩

/-- A part that does not read has the empty text. -/
theorem replays_lift {y : Except ε α} {T : α → List ι → Prop} (h : ∀ a, y = .ok a → T a []) :
    Replays At (liftM y : StateT σ (Except ε) α) T := by
  intro s a s' hrun
  cases y with
  | error e => cases hrun
  | ok b =>
    obtain ⟨rfl, rfl⟩ := Prod.mk.inj (Except.ok.inj hrun)
    exact ⟨[], h _ rfl, fun t v ht => ⟨t, rfl, ht⟩⟩

/-- The state is read, checked and replaced; states that agree pass the same checks, agree afterwards
and go on in the same way. -/
theorem replays_update {take : σ → σ} {check : σ → StateT σ (Except ε) Unit}
    {rest : σ → StateT σ (Except ε) β} {T : β → List ι → Prop}
    (hcheck : ∀ s a s', check s s = .ok (a, s') → s' = s)
    (hagree : ∀ s t v, At s t v → (check s s = .ok ((), s) → check t t = .ok ((), t)) ∧
      At (take s) (take t) v ∧ rest t = rest s)
    (hrest : ∀ s, Replays At (rest s) T) :
    Replays At (get >>= fun s => check s >>= fun _ => set (take s) >>= fun _ => rest s) T := by
  intro s b s' hrun
  obtain ⟨s₁, m₁, hget, hrun⟩ := stateT_bind_ok.1 hrun
  obtain ⟨rfl, rfl⟩ := Prod.mk.inj (Except.ok.inj hget)
  obtain ⟨⟨⟩, m₂, hchecked, hrun⟩ := stateT_bind_ok.1 hrun
  obtain rfl := hcheck _ _ m₂ hchecked
  obtain ⟨u, m₃, hset, hrun⟩ := stateT_bind_ok.1 hrun
  obtain ⟨-, rfl⟩ := Prod.mk.inj (Except.ok.inj hset)
  obtain ⟨w, hw, hagain⟩ := hrest m₂ (take m₂) b s' hrun
  refine ⟨w, hw, fun t v ht => ?_⟩
  obtain ⟨hpass, htake, hsame⟩ := hagree m₂ t (w ++ v) ht
  obtain ⟨t', hrun', ht'⟩ := hagain (take t) v htake
  refine ⟨t', ?_, ht'⟩
  rw [← hsame] at hrun'
  exact stateT_bind_ok.2 ⟨t, t, rfl, stateT_bind_ok.2 ⟨(), t, hpass hchecked,
    stateT_bind_ok.2 ⟨⟨⟩, take t, rfl, hrun'⟩⟩⟩

/-- The texts of the elements of a list stand one behind the other. -/
theorem Replays.replicate {text : α → List ι} (h : Replays At x fun a w => w = text a) (n : ℕ) :
    Replays At ((List.replicate n x).mapM id) fun as w => as.length = n ∧ w = as.flatMap text := by
  induction n with
  | zero => exact replays_pure ⟨rfl, rfl⟩
  | succ n ih =>
    rw [List.replicate_succ, List.mapM_cons]
    refine h.bind fun a w hw => ih.bind fun as u hu => replays_pure ⟨?_, ?_⟩
    · rw [List.length_cons, hu.1]
    · rw [hw, hu.2, List.append_nil, List.flatMap_cons]

end Fallible
