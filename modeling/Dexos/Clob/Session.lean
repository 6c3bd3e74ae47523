import Dexos.Clob.Operations

/-!
# Sessions

The books that sequences of calls reach. Below the capacity that slots can address, every
call refines price-time matching; above it, the slab hands out the sentinel as a slot.
-/

namespace Dexos.Clob

open Foundations PriceTime Option OrderBook

/-- The calls that change a book. -/
inductive Call where
  | submit (o : NewOrder)
  | place (o : NewOrder)
  | placeWithReport (o : NewOrder)
  | cancel (id : OrderId)
  | cancelAll (account : AccountId)
  | replace (id : OrderId) (price : Price) (quantity : Quantity)
  | replaceWithReport (id : OrderId) (price : Price) (quantity : Quantity)
  | submitBasket (legs : List NewOrder)
  | setPosition (account : AccountId) (position : Quantity)

/-- The book that a call leaves, whether it succeeds or fails; nothing if it panics. -/
def OrderBook.call (sha256 : Sha256) (b : OrderBook) : Call → Option OrderBook
  | .submit o => (b.submit sha256 o).map Prod.snd
  | .place o => (b.place sha256 o).map Prod.snd
  | .placeWithReport o => (b.placeWithReport sha256 o).map Prod.snd
  | .cancel id => (b.cancel sha256 id).map Prod.snd
  | .cancelAll account => (b.cancelAll sha256 account).map Prod.snd
  | .replace id price quantity => (b.replace sha256 id price quantity).map Prod.snd
  | .replaceWithReport id price quantity =>
    (b.replaceWithReport sha256 id price quantity).map Prod.snd
  | .submitBasket legs => (b.submitBasket sha256 legs).map Prod.snd
  | .setPosition account position => some (b.setPosition account position)

/-- The books that calls reach from an empty one. -/
inductive Reachable (sha256 : Sha256) (config : BookConfig) : OrderBook → Prop
  | new : Reachable sha256 config (new config)
  | step {b b' : OrderBook} (c : Call) (before : Reachable sha256 config b)
      (called : b.call sha256 c = some b') : Reachable sha256 config b'

/-! ## Sound books -/

/-- The book stores the orders of a proper price-time book. -/
structure Sound (sha256 : Sha256) (b : OrderBook) : Prop where
  stores : ∃ L, Represents sha256 b L
  proper : b.view.Proper

variable {sha256 : Sha256} {b b' : OrderBook}

theorem represents_new (sha256 : Sha256) (config : BookConfig) :
    Represents sha256 (new config) ⟨∅, ∅⟩ where
  sound := Slab.withCapacity_sound _
  capacity := rfl
  len := rfl
  laid side := by
    cases side <;> exact ⟨rfl, rfl, fun p q stored => by cases stored⟩
  mirror := by
    refine ⟨List.nodup_nil, List.nodup_nil, fun x => ?_, fun id loc => ?_, fun account ids h => ?_,
      fun account id => ?_, rfl⟩
    · exact iff_of_false List.not_mem_nil (by simp [storedIn, new, Slab.withCapacity, Slab.get])
    · exact iff_of_false (by simp [new]) (by simp [Layout.live, flatten])
    · cases h
    · exact iff_of_false (by simp [new]) (by simp [Layout.live, flatten])

theorem sound_new (sha256 : Sha256) (config : BookConfig) :
    Sound sha256 (new config) where
  stores := ⟨_, represents_new sha256 config⟩
  proper := Book.Proper.empty config ∅

/-- A concrete outcome stands for an abstract one. -/
structure Refines (sha256 : Sha256) (b : OrderBook) {ρ : Type}
    (concrete : Option (ρ × OrderBook)) (abstract : ρ × Book) : Prop where
  result : concrete.map (fun r => (r.1, r.2.view)) = some abstract
  sound : ∀ r, concrete = some r → Sound sha256 r.2 ∧ Frame b r.2

theorem Represents.Simulates.refines {ρ : Type} {concrete : Option (ρ × OrderBook)}
    {abstract : ρ × Book} (simulates : Represents.Simulates sha256 b concrete abstract)
    (proper : abstract.2.Proper) : Refines sha256 b concrete abstract := by
  obtain ⟨r, b', L', rfl, h', frame, rfl⟩ := simulates
  refine ⟨?_, ?_⟩
  · rw [map_some, h'.view_eq]
  · intro r same
    obtain rfl := some.inj same
    exact ⟨⟨⟨L', h'⟩, h'.view_eq ▸ proper⟩, frame⟩

theorem Refines.exists_some {ρ : Type} {concrete : Option (ρ × OrderBook)}
    {abstract : ρ × Book} (h : Refines sha256 b concrete abstract) :
    ∃ b', concrete = some (abstract.1, b') ∧ b'.view = abstract.2 ∧ Sound sha256 b' ∧
      Frame b b' := by
  obtain ⟨r, same, views⟩ := map_eq_some_iff.1 h.result
  obtain ⟨sound, frame⟩ := h.sound r same
  rw [← views]
  exact ⟨r.2, same, rfl, sound, frame⟩

namespace PriceTime.Book

variable {b : Book} (h : b.Proper)

include h

theorem Proper.place (o : NewOrder) :
    (b.place o).2.Proper ∧ (b.place o).2.config = b.config := by
  cases outcome : b.place o with
  | mk result after =>
    cases result with
    | error e =>
      rw [place_error h outcome]
      exact ⟨h, rfl⟩
    | ok report =>
      have placed := place_ok h outcome
      exact ⟨placed.proper, placed.config⟩

theorem Proper.cancel (id : OrderId) : (b.cancel id).2.Proper := by
  rw [Book.cancel]
  cases b.find id with
  | none => exact h
  | some => exact h.without _

theorem Proper.cancelAll (account : AccountId) : (b.cancelAll account).2.Proper :=
  h.without _

theorem Proper.replace (id : OrderId) (price : Price) (quantity : Quantity) :
    (b.replace id price quantity).2.Proper ∧ (b.replace id price quantity).2.config = b.config := by
  rw [Book.replace]
  split_ifs with small unpriced
  · exact ⟨h, rfl⟩
  · exact ⟨h, rfl⟩
  · cases b.find id with
    | none => exact ⟨h, rfl⟩
    | some x =>
      simp only
      split_ifs with high
      · exact ⟨h, rfl⟩
      · exact (h.without _).place _

end PriceTime.Book

section Calls

variable (h : Sound sha256 b)

include h

theorem Sound.cancel (id : OrderId) :
    Refines sha256 b (b.cancel sha256 id) (b.view.cancel id) := by
  obtain ⟨L, stores⟩ := h.stores
  have proper := h.proper.cancel id
  rw [stores.view_eq] at proper ⊢
  exact (stores.cancel_eq id).refines proper

theorem Sound.cancelAll (account : AccountId) :
    Refines sha256 b (b.cancelAll sha256 account) (b.view.cancelAll account) := by
  obtain ⟨L, stores⟩ := h.stores
  have proper := h.proper.cancelAll account
  rw [stores.view_eq] at proper ⊢
  exact (stores.cancelAll_eq account).refines proper

theorem Sound.setPosition (account : AccountId) (position : Quantity) :
    Sound sha256 (b.setPosition account position) := by
  obtain ⟨L, stores⟩ := h.stores
  have proper := h.proper
  have same : Represents sha256 (b.setPosition account position) L :=
    ⟨stores.sound, stores.capacity, stores.len,
      fun side => by cases side <;> exact stores.laid _, stores.mirror⟩
  refine ⟨⟨L, same⟩, ?_⟩
  rw [same.view_eq]
  rw [stores.view_eq] at proper
  refine ⟨?_, proper.distinct, ?_, ?_, proper.apart, proper.room⟩
  · intro side
    have stocked := proper.stocked side
    cases side <;> exact stocked
  · intro side p r held
    apply proper.positive side p r
    cases side <;> exact held
  · intro side p q found
    apply proper.fits side p q
    cases side <;> exact found

variable (addressable : (b.config.capacity : Nat) ≤ u32Max)

include addressable

theorem Sound.placeWithReport (o : NewOrder) :
    Refines sha256 b (b.placeWithReport sha256 o) (b.view.place o) := by
  obtain ⟨L, stores⟩ := h.stores
  obtain ⟨proper, config⟩ := h.proper.place o
  have small : (b.view.place o).2.count ≤ u32Max := by
    refine proper.room.trans ?_
    rwa [config]
  rw [stores.view_eq] at proper small ⊢
  exact (stores.executeWithReport_eq o small).refines proper

theorem Sound.replaceWithReport (id : OrderId) (price : Price) (quantity : Quantity) :
    Refines sha256 b (b.replaceWithReport sha256 id price quantity)
      (b.view.replace id price quantity) := by
  obtain ⟨L, stores⟩ := h.stores
  obtain ⟨proper, config⟩ := h.proper.replace id price quantity
  have small : (b.view.replace id price quantity).2.count ≤ u32Max := by
    refine proper.room.trans ?_
    rwa [config]
  rw [stores.view_eq] at proper small ⊢
  exact (stores.replaceWithReport_eq id price quantity small).refines proper

theorem Sound.submit (o : NewOrder) :
    ∃ r, b.submit sha256 o = some r ∧ Sound sha256 r.2 ∧ r.2.config = b.config := by
  rw [OrderBook.submit]
  cases b.dedup.get o.account o.clientId with
  | some cached => exact ⟨_, rfl, h, rfl⟩
  | none =>
    obtain ⟨b', runs, -, sound, frame⟩ := (h.placeWithReport addressable o).exists_some
    rw [OrderBook.placeWithReport] at runs
    rw [runs]
    cases (b.view.place o).1 with
    | error e => exact ⟨_, rfl, sound, frame.config⟩
    | ok report =>
      obtain ⟨L, stores⟩ := sound.stores
      refine ⟨_, rfl, ⟨⟨L, ?_⟩, sound.proper⟩, frame.config⟩
      exact ⟨stores.sound, stores.capacity, stores.len,
        fun side => by cases side <;> exact stores.laid _, stores.mirror⟩

omit h addressable in
theorem submitLegs_ok (legs : List NewOrder) {b : OrderBook} (h : Sound sha256 b)
    (addressable : (b.config.capacity : Nat) ≤ u32Max) :
    ∃ r, submitLegs sha256 b legs = some r ∧ Sound sha256 r.2 ∧ r.2.config = b.config := by
  induction legs generalizing b with
  | nil => exact ⟨_, rfl, h, rfl⟩
  | cons leg rest ih =>
    rw [submitLegs]
    obtain ⟨⟨result, b₁⟩, runs, sound, config⟩ := h.submit addressable leg
    rw [runs]
    cases result with
    | error e => exact ⟨_, rfl, sound, config⟩
    | ok first =>
      obtain ⟨r, later, sound', config'⟩ := ih sound (config ▸ addressable)
      simp only [later, map_some]
      exact ⟨_, rfl, sound', config'.trans config⟩

theorem Sound.submitBasket (legs : List NewOrder) :
    ∃ r, b.submitBasket sha256 legs = some r ∧ Sound sha256 r.2 ∧ r.2.config = b.config := by
  rw [OrderBook.submitBasket]
  split_ifs with large
  · exact ⟨_, rfl, h, rfl⟩
  · cases b.checkLegs [] legs with
    | error e => exact ⟨_, rfl, h, rfl⟩
    | ok =>
      obtain ⟨⟨result, b'⟩, runs, sound, config⟩ := submitLegs_ok legs h addressable
      simp only [runs]
      cases result with
      | error e => exact ⟨_, rfl, h, rfl⟩
      | ok results => exact ⟨_, rfl, sound, config⟩

/-- No call panics, and every call leaves a sound book. -/
theorem Sound.call (c : Call) :
    ∃ b', b.call sha256 c = some b' ∧ Sound sha256 b' ∧ b'.config = b.config := by
  have refined : ∀ {ρ : Type} {concrete : Option (ρ × OrderBook)} {abstract : ρ × Book},
      Refines sha256 b concrete abstract →
      ∃ b', concrete.map Prod.snd = some b' ∧ Sound sha256 b' ∧ b'.config = b.config := by
    intro ρ concrete abstract refines
    obtain ⟨b', runs, -, sound, frame⟩ := refines.exists_some
    exact ⟨b', by rw [runs]; rfl, sound, frame.config⟩
  cases c with
  | submit o =>
    obtain ⟨r, runs, sound, config⟩ := h.submit addressable o
    exact ⟨r.2, by rw [OrderBook.call, runs]; rfl, sound, config⟩
  | place o =>
    rw [OrderBook.call, OrderBook.place, map_map]
    exact refined (h.placeWithReport addressable o)
  | placeWithReport o => exact refined (h.placeWithReport addressable o)
  | cancel id => exact refined (h.cancel id)
  | cancelAll account => exact refined (h.cancelAll account)
  | replace id price quantity =>
    rw [OrderBook.call, OrderBook.replace, map_map]
    exact refined (h.replaceWithReport addressable id price quantity)
  | replaceWithReport id price quantity =>
    exact refined (h.replaceWithReport addressable id price quantity)
  | submitBasket legs =>
    obtain ⟨r, runs, sound, config⟩ := h.submitBasket addressable legs
    exact ⟨r.2, by rw [OrderBook.call, runs]; rfl, sound, config⟩
  | setPosition account position => exact ⟨_, rfl, h.setPosition account position, rfl⟩

end Calls

/-- Every reachable book is sound, as long as slots can address the capacity. -/
theorem Reachable.sound {config : BookConfig} (addressable : (config.capacity : Nat) ≤ u32Max)
    (reached : Reachable sha256 config b) : Sound sha256 b ∧ b.config = config := by
  induction reached with
  | new => exact ⟨sound_new sha256 config, rfl⟩
  | step c before called ih =>
    obtain ⟨sound, same⟩ := ih
    obtain ⟨b', runs, sound', same'⟩ := sound.call (same ▸ addressable) c
    rw [called] at runs
    obtain rfl := some.inj runs
    exact ⟨sound', same'.trans same⟩

end Dexos.Clob
