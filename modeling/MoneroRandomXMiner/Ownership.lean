import Mathlib.Data.List.Nodup
import Mathlib.Logic.Function.Basic

/-!
# Ledgers of owned handles

Handles are handed out to owners, pass from owner to owner and are released in
some order. A handle may depend on others, as an object depends on the ones it
was made from. In a sound ledger every handle that has not been released has
one owner, and none is released before everything that depends on it.
-/

namespace Ownership

universe u v

variable {Owner : Type u} {Handle : Type v}

/-- `released` is in the order of the releases, oldest first. -/
structure Ledger (Owner : Type u) (Handle : Type v) where
  handedOut : List Handle
  released : List Handle
  owned : Owner → List Handle

/-- Everything that depends on a member of the list stands before it. -/
def DependentsFirst (dependsOn : Handle → Handle → Prop) (among : Handle → Prop)
    (xs : List Handle) : Prop :=
  ∀ older x newer, xs = older ++ x :: newer → ∀ y, among y → dependsOn y x → y ∈ older

/-- `together` says that what a handle depends on has the same owner. -/
structure Sound (dependsOn : Handle → Handle → Prop) (l : Ledger Owner Handle) : Prop where
  known : ∀ x, x ∈ l.handedOut ↔ x ∈ l.released ∨ ∃ o, x ∈ l.owned o
  releasedOnce : l.released.Nodup
  ownedOnce : ∀ o, (l.owned o).Nodup
  unreleased : ∀ o x, x ∈ l.owned o → x ∉ l.released
  exclusive : ∀ o o' x, x ∈ l.owned o → x ∈ l.owned o' → o = o'
  together : ∀ o x y, y ∈ l.owned o → dependsOn y x → x ∈ l.owned o
  ordered : DependentsFirst dependsOn (· ∈ l.handedOut) l.released

variable {dependsOn : Handle → Handle → Prop} {l : Ledger Owner Handle}

theorem Sound.empty (dependsOn : Handle → Handle → Prop) :
    Sound dependsOn (⟨[], [], fun _ => []⟩ : Ledger Owner Handle) where
  known := fun x => by simp
  releasedOnce := List.nodup_nil
  ownedOnce := fun _ => List.nodup_nil
  unreleased := fun _ _ hx => nomatch hx
  exclusive := fun _ _ _ hx => nomatch hx
  together := fun _ _ _ hy => nomatch hy
  ordered := fun older x newer h => by simp at h

theorem Sound.handedOut_of_owned (sound : Sound dependsOn l) {o : Owner} {x : Handle}
    (hx : x ∈ l.owned o) : x ∈ l.handedOut := (sound.known x).mpr (Or.inr ⟨o, hx⟩)

theorem Sound.owner_unique (sound : Sound dependsOn l) {x : Handle} (out : x ∈ l.handedOut)
    (live : x ∉ l.released) : ∃! o, x ∈ l.owned o := by
  obtain ⟨o, ho⟩ := ((sound.known x).mp out).resolve_left live
  exact ⟨o, ho, fun o' ho' => sound.exclusive o' o x ho' ho⟩

theorem Sound.all_released (sound : Sound dependsOn l) (none : ∀ o, l.owned o = []) {x : Handle}
    (out : x ∈ l.handedOut) : x ∈ l.released := by
  rcases (sound.known x).mp out with done | ⟨o, ho⟩
  · exact done
  · rw [none o] at ho
    cases ho

variable [DecidableEq Owner]

theorem mem_update {owned : Owner → List Handle} {o p : Owner} {xs : List Handle} {x : Handle} :
    x ∈ Function.update owned o xs p ↔ (p = o ∧ x ∈ xs) ∨ (p ≠ o ∧ x ∈ owned p) := by
  by_cases hp : p = o
  · subst hp
    simp
  · simp [hp]

theorem nodup_update {owned : Owner → List Handle} {o : Owner} {xs : List Handle}
    (once : ∀ p, (owned p).Nodup) (hxs : xs.Nodup) (p : Owner) :
    (Function.update owned o xs p).Nodup := by
  by_cases hp : p = o
  · subst hp
    rwa [Function.update_self]
  · rw [Function.update_of_ne hp]
    exact once p

/-- One owner has all that was handed out. -/
theorem Sound.single {o : Owner} {xs : List Handle} (once : xs.Nodup)
    (closed : ∀ x y, y ∈ xs → dependsOn y x → x ∈ xs) :
    Sound dependsOn ⟨xs, [], Function.update (fun _ => []) o xs⟩ := by
  have hmem : ∀ p x, x ∈ Function.update (fun _ => []) o xs p ↔ p = o ∧ x ∈ xs := by
    intro p x
    rw [mem_update]
    simp
  constructor
  · intro x
    simp only [hmem, List.not_mem_nil, false_or, exists_eq_left]
  · exact List.nodup_nil
  · exact nodup_update (fun _ => List.nodup_nil) once
  · exact fun _ _ _ => List.not_mem_nil
  · intro p q x hp hq
    rw [((hmem p x).mp hp).1, ((hmem q x).mp hq).1]
  · intro p x y hy hdep
    obtain ⟨rfl, mem⟩ := (hmem p y).mp hy
    exact (hmem p x).mpr ⟨rfl, closed x y mem hdep⟩
  · intro older x newer split
    simp at split

/-- A new handle goes to one owner, who owns all that it depends on. -/
theorem Sound.acquire (sound : Sound dependsOn l) {o : Owner} {x : Handle} {xs : List Handle}
    (fresh : x ∉ l.handedOut) (parents : ∀ y, dependsOn x y → y ∈ l.owned o)
    (listed : xs.Perm (x :: l.owned o)) :
    Sound dependsOn ⟨x :: l.handedOut, l.released, Function.update l.owned o xs⟩ := by
  have hmem : ∀ y, y ∈ xs ↔ y = x ∨ y ∈ l.owned o := fun y => by
    rw [listed.mem_iff, List.mem_cons]
  have unowned : ∀ p, x ∉ l.owned p := fun p hp => fresh (sound.handedOut_of_owned hp)
  have unreleased : x ∉ l.released := fun hx => fresh ((sound.known x).mpr (Or.inl hx))
  refine ⟨?_, sound.releasedOnce, ?_, ?_, ?_, ?_, ?_⟩
  · intro y
    simp only [List.mem_cons, mem_update, hmem, sound.known y]
    constructor
    · rintro (rfl | done | ⟨p, hp⟩)
      · exact Or.inr ⟨o, Or.inl ⟨rfl, Or.inl rfl⟩⟩
      · exact Or.inl done
      · by_cases hpo : p = o
        · exact Or.inr ⟨o, Or.inl ⟨rfl, Or.inr (hpo ▸ hp)⟩⟩
        · exact Or.inr ⟨p, Or.inr ⟨hpo, hp⟩⟩
    · rintro (done | ⟨p, ⟨rfl, rfl | hp⟩ | ⟨_, hp⟩⟩)
      · exact Or.inr (Or.inl done)
      · exact Or.inl rfl
      · exact Or.inr (Or.inr ⟨p, hp⟩)
      · exact Or.inr (Or.inr ⟨p, hp⟩)
  · apply nodup_update sound.ownedOnce
    rw [listed.nodup_iff, List.nodup_cons]
    exact ⟨unowned o, sound.ownedOnce o⟩
  · intro p y hy
    simp only [mem_update, hmem] at hy
    rcases hy with ⟨_, rfl | hy⟩ | ⟨_, hy⟩
    · exact unreleased
    · exact sound.unreleased o y hy
    · exact sound.unreleased p y hy
  · intro p q y hp hq
    simp only [mem_update, hmem] at hp hq
    rcases hp with ⟨rfl, rfl | hp⟩ | ⟨_, hp⟩
    · rcases hq with ⟨rfl, _⟩ | ⟨_, hq⟩
      · rfl
      · exact absurd hq (unowned q)
    · rcases hq with ⟨rfl, _⟩ | ⟨_, hq⟩
      · rfl
      · exact sound.exclusive p q y hp hq
    · rcases hq with ⟨rfl, rfl | hq⟩ | ⟨_, hq⟩
      · exact absurd hp (unowned p)
      · exact sound.exclusive p q y hp hq
      · exact sound.exclusive p q y hp hq
  · intro p y z hz hdep
    simp only [mem_update, hmem] at hz ⊢
    rcases hz with ⟨rfl, rfl | hz⟩ | ⟨hne, hz⟩
    · exact Or.inl ⟨rfl, Or.inr (parents y hdep)⟩
    · exact Or.inl ⟨rfl, Or.inr (sound.together p y z hz hdep)⟩
    · exact Or.inr ⟨hne, sound.together p y z hz hdep⟩
  · intro older y newer split z hz hdep
    rcases List.mem_cons.mp hz with rfl | hz
    · have released : y ∈ l.released := by
        rw [show l.released = older ++ y :: newer from split]
        simp
      exact absurd released (sound.unreleased o y (parents y hdep))
    · exact sound.ordered older y newer split z hz hdep

/-- An owner releases all that it owns, dependents first. -/
theorem Sound.releaseAll (sound : Sound dependsOn l) (o : Owner)
    (order : DependentsFirst dependsOn (· ∈ l.owned o) (l.owned o)) :
    Sound dependsOn ⟨l.handedOut, l.released ++ l.owned o, Function.update l.owned o []⟩ := by
  have hmem : ∀ p x, x ∈ Function.update l.owned o [] p ↔ p ≠ o ∧ x ∈ l.owned p := by
    intro p x
    simp [mem_update]
  constructor
  · intro x
    simp only [List.mem_append, hmem, sound.known x]
    constructor
    · rintro (done | ⟨p, hp⟩)
      · exact Or.inl (Or.inl done)
      · by_cases hpo : p = o
        · exact Or.inl (Or.inr (hpo ▸ hp))
        · exact Or.inr ⟨p, hpo, hp⟩
    · rintro ((done | hx) | ⟨p, _, hp⟩)
      · exact Or.inl done
      · exact Or.inr ⟨o, hx⟩
      · exact Or.inr ⟨p, hp⟩
  · rw [List.nodup_append]
    refine ⟨sound.releasedOnce, sound.ownedOnce o, ?_⟩
    rintro x hx y hy rfl
    exact sound.unreleased o x hy hx
  · exact nodup_update sound.ownedOnce List.nodup_nil
  · intro p x hx
    obtain ⟨hne, hx⟩ := (hmem p x).mp hx
    rw [List.mem_append]
    rintro (done | own)
    · exact sound.unreleased p x hx done
    · exact hne (sound.exclusive p o x hx own)
  · intro p q x hp hq
    exact sound.exclusive p q x ((hmem p x).mp hp).2 ((hmem q x).mp hq).2
  · intro p x y hy hdep
    obtain ⟨hne, hy⟩ := (hmem p y).mp hy
    exact (hmem p x).mpr ⟨hne, sound.together p x y hy hdep⟩
  · intro older x newer split y hy hdep
    -- if `x` is released now, what depends on it went before or is owned with it
    have now : ∀ before, l.owned o = before ++ x :: newer → y ∈ l.released ++ before := by
      intro before hown
      rcases (sound.known y).mp hy with done | ⟨p, hp⟩
      · exact List.mem_append_left _ done
      · have own : x ∈ l.owned o := by
          rw [hown]
          simp
        obtain rfl := sound.exclusive p o x (sound.together p x y hp hdep) own
        exact List.mem_append_right _ (order before x newer hown y hp hdep)
    change l.released ++ l.owned o = older ++ x :: newer at split
    rcases List.append_eq_append_iff.mp split with ⟨before, rfl, hown⟩ | ⟨rest, hrel, htail⟩
    · exact now before hown
    · cases rest with
      | nil =>
        rw [List.append_nil] at hrel
        simpa [hrel] using now [] htail.symm
      | cons z rest =>
        rw [List.cons_append, List.cons.injEq] at htail
        obtain ⟨rfl, _⟩ := htail
        exact sound.ordered older x rest hrel y hy hdep

/-- All that one owner owns goes to another one that owns nothing. -/
theorem Sound.transfer (sound : Sound dependsOn l) {source target : Owner}
    (distinct : target ≠ source) (vacant : l.owned target = []) :
    Sound dependsOn ⟨l.handedOut, l.released,
      Function.update (Function.update l.owned target (l.owned source)) source []⟩ := by
  obtain ⟨back, hback⟩ : ∃ back : Owner → Owner,
      ∀ p, back p = if p = target then source else p := ⟨_, fun _ => rfl⟩
  have hmem : ∀ p x,
      x ∈ Function.update (Function.update l.owned target (l.owned source)) source [] p ↔
        p ≠ source ∧ x ∈ l.owned (back p) := by
    intro p x
    by_cases hs : p = source
    · simp [hs]
    · by_cases ht : p = target
      · simp [ht, hback, distinct]
      · simp [hs, ht, hback]
  have hback_inj : ∀ p q, p ≠ source → q ≠ source → back p = back q → p = q := by
    intro p q hp hq
    rw [hback, hback]
    split <;> split <;> grind
  refine ⟨?_, sound.releasedOnce, ?_, ?_, ?_, ?_, sound.ordered⟩
  · intro x
    rw [sound.known x]
    apply or_congr_right
    simp only [hmem]
    constructor
    · rintro ⟨p, hp⟩
      by_cases hs : p = source
      · exact ⟨target, distinct, by rwa [hback, if_pos rfl, ← hs]⟩
      · have ht : p ≠ target := by
          rintro rfl
          rw [vacant] at hp
          cases hp
        exact ⟨p, hs, by rwa [hback, if_neg ht]⟩
    · rintro ⟨p, _, hp⟩
      exact ⟨back p, hp⟩
  · exact nodup_update (nodup_update sound.ownedOnce (sound.ownedOnce source)) List.nodup_nil
  · intro p x hx
    exact sound.unreleased (back p) x ((hmem p x).mp hx).2
  · intro p q x hp hq
    obtain ⟨hps, hp⟩ := (hmem p x).mp hp
    obtain ⟨hqs, hq⟩ := (hmem q x).mp hq
    exact hback_inj p q hps hqs (sound.exclusive _ _ x hp hq)
  · intro p x y hy hdep
    obtain ⟨hps, hy⟩ := (hmem p y).mp hy
    exact (hmem p x).mpr ⟨hps, sound.together _ x y hy hdep⟩

end Ownership
