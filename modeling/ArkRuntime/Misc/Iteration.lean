import ArkRuntime.Misc.Entries
import Mathlib.Data.List.Pairwise

/-!
# Iterating over an ordered map that changes

An ordered map is changed while an iterator walks over it. An entry is born when its key is set while
no entry has the key; setting the key again changes the value of that entry, and when the key is
erased the entry dies. The iterator stands before all entries born at or after its position. Each
`next` yields the first of these that is alive, or reports that there is none, and then is done for
good.

`IteratesInOrder` says what such an iteration yields: entries that are alive, in the order of their
births, and every entry that is alive when the iterator comes to its place, exactly once.
-/

namespace ArkRuntime

variable {K V : Type*}

/-- An entry that is alive, with the time of its birth. -/
structure Live (K V : Type*) where
  birth : Nat
  key : K
  value : V

/-- What happens to the map and its iterator. -/
inductive MapEvent (K V : Type*) where
  | set (key : K) (value : V)
  | erase (key : K)
  | clear
  | keep
  | next

/-- The entries alive, and the births from which on the iterator still looks for them; a position
    of `none` is that of an iterator that is done. -/
structure Iteration (K V : Type*) where
  time : Nat
  lives : List (Live K V)
  position : Option Nat

namespace Iteration

/-- The entry that `next` yields. -/
def nextLive (a : Iteration K V) : Option (Live K V) :=
  a.position.bind fun p => a.lives.find? fun l => decide (p ≤ l.birth)

def step (same : K → K → Bool) (a : Iteration K V) : MapEvent K V → Iteration K V
  | .set key value =>
      { a with
        time := a.time + 1
        lives := upsert (fun l => same key l.key) (fun l => { l with value := value })
          ⟨a.time, key, value⟩ a.lives }
  | .erase key => { a with time := a.time + 1, lives := discard (fun l => same key l.key) a.lives }
  | .clear => { a with time := a.time + 1, lives := [] }
  | .keep => { a with time := a.time + 1 }
  | .next => { a with time := a.time + 1, position := a.nextLive.map fun l => l.birth + 1 }

/-- A map without entries. -/
def empty : Iteration K V := ⟨0, [], none⟩

/-- A new iterator. -/
def begin (a : Iteration K V) : Iteration K V := { a with position := some 0 }

/-- The state before the `i`-th event. -/
def stateAt (same : K → K → Bool) (start : Iteration K V) (events : List (MapEvent K V)) (i : Nat) :
    Iteration K V :=
  (events.take i).foldl (step same) start

/-- What the `i`-th event yields, if it is a `next`. -/
def yieldAt (same : K → K → Bool) (start : Iteration K V) (events : List (MapEvent K V)) (i : Nat) :
    Option (Live K V) :=
  match events[i]? with
  | some .next => (stateAt same start events i).nextLive
  | _ => none

/-- The entries are in the order of their births and have different keys. -/
structure Ordered (same : K → K → Bool) (a : Iteration K V) : Prop where
  births : a.lives.Pairwise fun l m => l.birth < m.birth
  keys : a.lives.Pairwise fun l m => same l.key m.key = false
  past : ∀ l ∈ a.lives, l.birth < a.time
  position : ∀ p, a.position = some p → p ≤ a.time

variable {l m : Live K V} {i j p : Nat} {e : MapEvent K V}

section Step

variable {same : K → K → Bool} {a : Iteration K V}

theorem time_step (e : MapEvent K V) : (a.step same e).time = a.time + 1 := by
  cases e <;> rfl

theorem position_of_ne_next (other : e ≠ .next) : (a.step same e).position = a.position := by
  cases e with
  | next => exact absurd rfl other
  | _ => rfl

/-- An entry alive after a step was alive before, or was born in it. -/
theorem mem_step (mem : l ∈ (a.step same e).lives) :
    (∃ m ∈ a.lives, m.birth = l.birth ∧ m.key = l.key) ∨
      (l.birth = a.time ∧ (∃ value, e = .set l.key value) ∧ ∀ m ∈ a.lives, same l.key m.key = false) := by
  cases e with
  | set key value =>
    rcases mem_upsert mem with old | ⟨m, old, rfl⟩ | ⟨rfl, fresh⟩
    · exact .inl ⟨l, old, rfl, rfl⟩
    · exact .inl ⟨m, old, rfl, rfl⟩
    · exact .inr ⟨rfl, ⟨value, rfl⟩, fresh⟩
  | erase key => exact .inl ⟨l, List.mem_of_mem_filter mem, rfl, rfl⟩
  | clear => cases mem
  | keep => exact .inl ⟨l, mem, rfl, rfl⟩
  | next => exact .inl ⟨l, mem, rfl, rfl⟩

theorem nextLive_eq_some (ordered : a.Ordered same) (position : a.position = some p)
    (yields : a.nextLive = some l) :
    l ∈ a.lives ∧ p ≤ l.birth ∧ ∀ m ∈ a.lives, p ≤ m.birth → m.birth < l.birth → False := by
  rw [nextLive, position, Option.bind_some] at yields
  obtain ⟨here, as, bs, split, before⟩ := List.find?_eq_some_iff_append.mp yields
  refine ⟨by simp [split], by simpa using here, fun m mem above below => ?_⟩
  rw [split] at mem
  rcases List.mem_append.mp mem with first | last
  · simpa [above] using before m first
  · have births := ordered.births
    rw [split] at births
    have tail := (List.pairwise_append.mp births).2.1
    rcases List.mem_cons.mp last with rfl | last
    · omega
    · have := List.rel_of_pairwise_cons tail last
      omega

theorem nextLive_eq_none (position : a.position = some p) (done : a.nextLive = none) :
    ∀ l ∈ a.lives, l.birth < p := by
  rw [nextLive, position, Option.bind_some] at done
  intro l mem
  simpa using List.find?_eq_none.mp done l mem

theorem upsert_pairwise {R : Live K V → Live K V → Prop} {key : K} {value : V} {new : Live K V}
    {lives : List (Live K V)} (pairs : lives.Pairwise R)
    (update : ∀ l m, R l m → R { l with value := value } m ∧ R l { m with value := value } ∧
      R { l with value := value } { m with value := value })
    (last : (∀ l ∈ lives, same key l.key = false) → ∀ l ∈ lives, R l new) :
    (upsert (fun l => same key l.key) (fun l => { l with value := value }) new lives).Pairwise R := by
  unfold upsert
  by_cases some : (lives.any fun l => same key l.key) = true
  · rw [if_pos some, List.pairwise_map]
    refine pairs.imp fun {l m} rel => ?_
    obtain ⟨left, right, both⟩ := update l m rel
    by_cases hl : same key l.key = true <;> by_cases hm : same key m.key = true <;>
      simp only [hl, hm, if_true, if_false, Bool.false_eq_true] <;> assumption
  · rw [if_neg some]
    refine List.pairwise_append.mpr ⟨pairs, List.pairwise_singleton _ _, fun l mem m here => ?_⟩
    rw [List.mem_singleton.mp here]
    exact last (by simpa using some) l mem

theorem Ordered.step (symm : ∀ k k', same k k' = true → same k' k = true) (ordered : a.Ordered same)
    (e : MapEvent K V) : (a.step same e).Ordered same := by
  have past : ∀ l ∈ (a.step same e).lives, l.birth < (a.step same e).time := by
    intro l mem
    rw [time_step]
    rcases mem_step mem with ⟨m, old, birth, -⟩ | ⟨birth, -⟩
    · have := ordered.past m old
      omega
    · omega
  have position : ∀ p, (a.step same e).position = some p → p ≤ (a.step same e).time := by
    intro p here
    rw [time_step]
    by_cases isNext : e = .next
    · subst isNext
      obtain ⟨l, yields, rfl⟩ := Option.map_eq_some_iff.mp here
      obtain ⟨q, -, found⟩ := Option.bind_eq_some_iff.mp yields
      have := ordered.past l (List.mem_of_find?_eq_some found)
      omega
    · rw [position_of_ne_next isNext] at here
      exact Nat.le_succ_of_le (ordered.position p here)
  cases e with
  | set key value =>
    refine ⟨?_, ?_, past, position⟩
    · exact upsert_pairwise ordered.births (fun l m rel => ⟨rel, rel, rel⟩) fun _ => ordered.past
    · refine upsert_pairwise ordered.keys (fun l m rel => ⟨rel, rel, rel⟩) fun fresh l mem => ?_
      by_contra hit
      have := fresh l mem
      rw [symm _ _ (by simpa using hit)] at this
      cases this
  | erase key => exact ⟨ordered.births.filter _, ordered.keys.filter _, past, position⟩
  | clear => exact ⟨List.Pairwise.nil, List.Pairwise.nil, past, position⟩
  | keep => exact ⟨ordered.births, ordered.keys, past, position⟩
  | next => exact ⟨ordered.births, ordered.keys, past, position⟩

end Step

/-! ## What an iteration yields -/

/-- The `j`-th event takes the iterator to or past the place of an entry born at `birth`. -/
def Reaches (same : K → K → Bool) (start : Iteration K V) (events : List (MapEvent K V))
    (j birth : Nat) : Prop :=
  events[j]? = some .next ∧
    ((∃ l, yieldAt same start events j = some l ∧ birth ≤ l.birth) ∨
      (yieldAt same start events j = none ∧
        ∀ i < j, events[i]? = some .next → yieldAt same start events i ≠ none))

structure IteratesInOrder (same : K → K → Bool) (start : Iteration K V)
    (events : List (MapEvent K V)) : Prop where
  /-- Every entry is alive when it is yielded. -/
  live : ∀ {i l}, yieldAt same start events i = some l → l ∈ (stateAt same start events i).lives
  /-- The entries come in the order of their births. -/
  order : ∀ {i j l m}, i < j → yieldAt same start events i = some l →
    yieldAt same start events j = some m → l.birth < m.birth
  /-- A key comes again only if it was gone and is set again after it was yielded. -/
  again : ∀ {i j l m}, i < j → yieldAt same start events i = some l →
    yieldAt same start events j = some m → same m.key l.key = true →
    ∃ n, i < n ∧ n < j ∧ (∃ value, events[n]? = some (.set m.key value)) ∧
      ∀ o ∈ (stateAt same start events n).lives, same m.key o.key = false
  /-- An entry that is alive when the iterator comes to its place is yielded exactly once. -/
  reached : ∀ {j l}, Reaches same start events j l.birth →
    l ∈ (stateAt same start events j).lives →
    ∃ i ≤ j, (∃ m, yieldAt same start events i = some m ∧ m.birth = l.birth ∧ m.key = l.key) ∧
      ∀ i' m, yieldAt same start events i' = some m → m.birth = l.birth → i' = i

section Run

variable {same : K → K → Bool} {start : Iteration K V} {events : List (MapEvent K V)}

theorem stateAt_succ (here : events[i]? = some e) :
    stateAt same start events (i + 1) = (stateAt same start events i).step same e := by
  rw [stateAt, stateAt, List.take_add_one, here, List.foldl_append]
  rfl

theorem stateAt_of_length_le (none : events[i]? = none) :
    stateAt same start events (i + 1) = stateAt same start events i := by
  rw [stateAt, stateAt, List.take_add_one, none]
  simp

theorem stateAt_ordered (symm : ∀ k k', same k k' = true → same k' k = true)
    (ordered : start.Ordered same) (i : Nat) : (stateAt same start events i).Ordered same := by
  induction i with
  | zero => exact ordered
  | succ i ih =>
    cases here : events[i]? with
    | none =>
      rw [stateAt_of_length_le here]
      exact ih
    | some e =>
      rw [stateAt_succ here]
      exact ih.step symm e

theorem yieldAt_next (here : events[i]? = some .next) :
    yieldAt same start events i = (stateAt same start events i).nextLive := by
  rw [yieldAt, here]

theorem next_of_yieldAt (yields : yieldAt same start events i = some l) :
    events[i]? = some .next ∧ (stateAt same start events i).nextLive = some l := by
  unfold yieldAt at yields
  rcases here : events[i]? with _ | e
  · rw [here] at yields
    cases yields
  · rw [here] at yields
    cases e <;> first | exact ⟨rfl, yields⟩ | cases yields

theorem position_of_yield {a : Iteration K V} (yields : a.nextLive = some l) : ∃ p, a.position = some p := by
  obtain ⟨p, position, -⟩ := Option.bind_eq_some_iff.mp yields
  exact ⟨p, position⟩

/-- The position only goes forward. -/
theorem position_step {a : Iteration K V} (ordered : a.Ordered same) {q : Nat}
    (position : (a.step same e).position = some q) : ∃ p, a.position = some p ∧ p ≤ q := by
  by_cases isNext : e = .next
  · subst isNext
    obtain ⟨l, yields, rfl⟩ := Option.map_eq_some_iff.mp position
    obtain ⟨p, before⟩ := position_of_yield yields
    obtain ⟨-, above, -⟩ := nextLive_eq_some ordered before yields
    exact ⟨p, before, by omega⟩
  · rw [position_of_ne_next isNext] at position
    exact ⟨q, position, Nat.le_refl q⟩

theorem position_mono (symm : ∀ k k', same k k' = true → same k' k = true) (ordered : start.Ordered same)
    {q : Nat} (le : i ≤ j) (position : (stateAt same start events j).position = some q) :
    ∃ p, (stateAt same start events i).position = some p ∧ p ≤ q := by
  induction j generalizing q with
  | zero =>
    obtain rfl : i = 0 := by omega
    exact ⟨q, position, Nat.le_refl q⟩
  | succ j ih =>
    rcases Nat.lt_or_eq_of_le le with less | rfl
    · cases here : events[j]? with
      | none =>
        rw [stateAt_of_length_le here] at position
        exact ih (by omega) position
      | some e =>
        rw [stateAt_succ here] at position
        obtain ⟨p, before, low⟩ := position_step (stateAt_ordered symm ordered j) position
        obtain ⟨p', first, low'⟩ := ih (by omega) before
        exact ⟨p', first, by omega⟩
    · exact ⟨q, position, Nat.le_refl q⟩

theorem position_after_yield (yields : yieldAt same start events i = some l) :
    (stateAt same start events (i + 1)).position = some (l.birth + 1) := by
  obtain ⟨here, next⟩ := next_of_yieldAt yields
  rw [stateAt_succ here, step, next]
  rfl

theorem yields_in_order (symm : ∀ k k', same k k' = true → same k' k = true) (ordered : start.Ordered same)
    (before : i < j) (first : yieldAt same start events i = some l)
    (second : yieldAt same start events j = some m) : l.birth < m.birth := by
  obtain ⟨-, next⟩ := next_of_yieldAt second
  obtain ⟨q, position⟩ := position_of_yield next
  obtain ⟨p, after, low⟩ := position_mono symm ordered (Nat.succ_le_of_lt before) position
  obtain ⟨-, above, -⟩ := nextLive_eq_some (stateAt_ordered symm ordered j) position next
  rw [position_after_yield first, Option.some.injEq] at after
  omega

/-- An entry alive at some time was alive before, or was born meanwhile, when no entry had its key. -/
theorem alive_or_born (le : i ≤ j) (alive : l ∈ (stateAt same start events j).lives) :
    (∃ m ∈ (stateAt same start events i).lives, m.birth = l.birth ∧ m.key = l.key) ∨
      ∃ n, i ≤ n ∧ n < j ∧ (∃ value, events[n]? = some (.set l.key value)) ∧
        ∀ o ∈ (stateAt same start events n).lives, same l.key o.key = false := by
  induction j generalizing l with
  | zero =>
    obtain rfl : i = 0 := by omega
    exact .inl ⟨l, alive, rfl, rfl⟩
  | succ j ih =>
    rcases Nat.lt_or_eq_of_le le with less | rfl
    · have earlier {m : Live K V} (old : m ∈ (stateAt same start events j).lives)
          (birth : m.birth = l.birth) (key : m.key = l.key) := by
        have found := ih (by omega) old
        rw [birth, key] at found
        exact found
      cases here : events[j]? with
      | none =>
        rw [stateAt_of_length_le here] at alive
        rcases earlier alive rfl rfl with before | ⟨n, low, high, born⟩
        · exact .inl before
        · exact .inr ⟨n, low, by omega, born⟩
      | some e =>
        rw [stateAt_succ here] at alive
        rcases mem_step alive with ⟨m, old, birth, key⟩ | ⟨-, ⟨value, rfl⟩, fresh⟩
        · rcases earlier old birth key with before | ⟨n, low, high, born⟩
          · exact .inl before
          · exact .inr ⟨n, low, by omega, born⟩
        · exact .inr ⟨j, by omega, by omega, ⟨value, here⟩, fresh⟩
    · exact .inl ⟨l, alive, rfl, rfl⟩

/-- Entries of one list with the same key are one entry. -/
theorem eq_of_same_key {a : Iteration K V} (symm : ∀ k k', same k k' = true → same k' k = true)
    (ordered : a.Ordered same) (hl : l ∈ a.lives) (hm : m ∈ a.lives) (hit : same l.key m.key = true) :
    l = m := by
  by_contra apart
  have : Std.Symm fun x y : Live K V => same x.key y.key = false := by
    constructor
    intro x y different
    by_contra hit
    rw [symm _ _ (by simpa using hit)] at different
    cases different
  have different := ordered.keys.forall hl hm apart
  rw [hit] at different
  cases different

/-- Entries of one list with the same birth are one entry. -/
theorem eq_of_same_birth {a : Iteration K V} (ordered : a.Ordered same) (hl : l ∈ a.lives) (hm : m ∈ a.lives)
    (hit : l.birth = m.birth) : l = m := by
  by_contra apart
  have different : a.lives.Pairwise fun x y => x.birth ≠ y.birth :=
    ordered.births.imp fun less => Nat.ne_of_lt less
  have : Std.Symm fun x y : Live K V => x.birth ≠ y.birth := ⟨fun x y ne => Ne.symm ne⟩
  exact different.forall hl hm apart hit

/-- Nothing is skipped: an entry before the position was yielded. -/
theorem yielded_of_passed (symm : ∀ k k', same k k' = true → same k' k = true) (ordered : start.Ordered same)
    (first : start.position = some 0) (position : (stateAt same start events j).position = some p)
    (alive : l ∈ (stateAt same start events j).lives) (passed : l.birth < p) :
    ∃ i < j, ∃ m, yieldAt same start events i = some m ∧ m.birth = l.birth ∧ m.key = l.key := by
  induction j generalizing l p with
  | zero =>
    rw [stateAt, List.take_zero, List.foldl_nil, first, Option.some.injEq] at position
    omega
  | succ j ih =>
    have earlier {m : Live K V} {q : Nat}
        (before : (stateAt same start events j).position = some q)
        (old : m ∈ (stateAt same start events j).lives) (low : m.birth < q)
        (birth : m.birth = l.birth) (key : m.key = l.key) :
        ∃ i < j + 1, ∃ m, yieldAt same start events i = some m ∧ m.birth = l.birth ∧ m.key = l.key := by
      obtain ⟨i, less, m', yields, sameBirth, sameKey⟩ := ih before old low
      exact ⟨i, by omega, m', yields, sameBirth.trans birth, sameKey.trans key⟩
    have ordered' : (stateAt same start events j).Ordered same := stateAt_ordered symm ordered j
    cases here : events[j]? with
    | none =>
      rw [stateAt_of_length_le here] at position alive
      exact earlier position alive passed rfl rfl
    | some e =>
      rw [stateAt_succ here] at position alive
      obtain ⟨q, before, low⟩ := position_step ordered' position
      rcases mem_step alive with ⟨m, old, birth, key⟩ | ⟨birth, ⟨value, rfl⟩, -⟩
      · rcases Nat.lt_or_ge m.birth q with below | above
        · exact earlier before old below birth key
        · -- The event moved the position over the entry, so it is the one that was yielded.
          by_cases isNext : e = .next
          · subst isNext
            obtain ⟨o, yields, rfl⟩ := Option.map_eq_some_iff.mp position
            obtain ⟨mem, -, least⟩ := nextLive_eq_some ordered' before yields
            have notBefore : ¬ m.birth < o.birth := least m old above
            obtain rfl := eq_of_same_birth ordered' old mem (by omega)
            exact ⟨j, by omega, m, by rw [yieldAt_next here, yields], birth, key⟩
          · rw [position_of_ne_next isNext, before, Option.some.injEq] at position
            omega
      · have := ordered'.position q before
        rw [position_of_ne_next (by simp), before, Option.some.injEq] at position
        omega

/-- As long as no `next` reported that it is done, the iterator has a position. -/
theorem position_of_not_done (first : start.position = some 0)
    (going : ∀ i < j, events[i]? = some .next → yieldAt same start events i ≠ none) :
    ∃ p, (stateAt same start events j).position = some p := by
  induction j with
  | zero => exact ⟨0, first⟩
  | succ j ih =>
    obtain ⟨p, position⟩ := ih fun i less => going i (by omega)
    cases here : events[j]? with
    | none => exact ⟨p, by rw [stateAt_of_length_le here, position]⟩
    | some e =>
      rw [stateAt_succ here]
      by_cases isNext : e = .next
      · subst isNext
        have some := going j (by omega) here
        rw [yieldAt_next here] at some
        obtain ⟨l, yields⟩ := Option.ne_none_iff_exists'.mp some
        exact ⟨l.birth + 1, by rw [step, yields]; rfl⟩
      · exact ⟨p, by rw [position_of_ne_next isNext, position]⟩

theorem yielded_of_reached (symm : ∀ k k', same k k' = true → same k' k = true) (ordered : start.Ordered same)
    (first : start.position = some 0) (reaches : Reaches same start events j l.birth)
    (alive : l ∈ (stateAt same start events j).lives) :
    ∃ i ≤ j, ∃ m, yieldAt same start events i = some m ∧ m.birth = l.birth ∧ m.key = l.key := by
  obtain ⟨here, ⟨m, yields, low⟩ | ⟨done, going⟩⟩ := reaches
  · rcases Nat.lt_or_eq_of_le low with less | same'
    · obtain ⟨-, next⟩ := next_of_yieldAt yields
      obtain ⟨p, position⟩ := position_of_yield next
      obtain ⟨-, -, least⟩ := nextLive_eq_some (stateAt_ordered symm ordered j) position next
      have passed : l.birth < p := by
        by_contra above
        exact least l alive (by omega) less
      obtain ⟨i, before, found⟩ := yielded_of_passed symm ordered first position alive passed
      exact ⟨i, by omega, found⟩
    · obtain ⟨-, next⟩ := next_of_yieldAt yields
      obtain ⟨q, -, found⟩ := Option.bind_eq_some_iff.mp next
      have mem := List.mem_of_find?_eq_some found
      obtain rfl := eq_of_same_birth (stateAt_ordered symm ordered j) alive mem same'
      exact ⟨j, Nat.le_refl j, l, yields, rfl, rfl⟩
  · obtain ⟨p, position⟩ := position_of_not_done first going
    rw [yieldAt_next here] at done
    have passed := nextLive_eq_none position done l alive
    obtain ⟨i, before, found⟩ := yielded_of_passed symm ordered first position alive passed
    exact ⟨i, by omega, found⟩

theorem iteratesInOrder (symm : ∀ k k', same k k' = true → same k' k = true)
    (ordered : start.Ordered same) (first : start.position = some 0)
    (events : List (MapEvent K V)) : IteratesInOrder same start events := by
  have order {i j : Nat} {l m : Live K V} (before : i < j)
      (yields : yieldAt same start events i = some l) (later : yieldAt same start events j = some m) :
      l.birth < m.birth := yields_in_order symm ordered before yields later
  have live {i : Nat} {l : Live K V} (yields : yieldAt same start events i = some l) :
      l ∈ (stateAt same start events i).lives := by
    obtain ⟨-, next⟩ := next_of_yieldAt yields
    obtain ⟨q, -, found⟩ := Option.bind_eq_some_iff.mp next
    exact List.mem_of_find?_eq_some found
  refine ⟨live, order, fun {i j l m} before yields later hit => ?_, fun {j l} reaches alive => ?_⟩
  · rcases alive_or_born (Nat.le_of_lt before) (live later) with ⟨o, old, birth, key⟩ | ⟨n, low, high, born, gone⟩
    · -- The key would have two entries at the time of the first yield.
      have less := order before yields later
      rw [← key] at hit
      obtain rfl := eq_of_same_key symm (stateAt_ordered symm ordered i) old (live yields) hit
      omega
    · refine ⟨n, ?_, high, born, gone⟩
      rcases Nat.lt_or_eq_of_le low with less | rfl
      · exact less
      · obtain ⟨here, -⟩ := next_of_yieldAt yields
        obtain ⟨value, set⟩ := born
        rw [here] at set
        cases set
  · obtain ⟨i, le, m, yields, birth, key⟩ := yielded_of_reached symm ordered first reaches alive
    refine ⟨i, le, ⟨m, yields, birth, key⟩, fun i' m' yields' birth' => ?_⟩
    rcases Nat.lt_trichotomy i' i with less | same' | more
    · have := order less yields' yields
      omega
    · exact same'
    · have := order more yields yields'
      omega

end Run

end Iteration

end ArkRuntime
