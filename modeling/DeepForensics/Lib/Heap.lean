/-
# Linked chains in a pointer heap

A heap maps addresses to the nodes allocated there.  Singly linked chains are laid out in
it from a list of values: `link` gives every value its node, with the pointer to the next
one, and `store` writes the nodes.  Everything is stated for an arbitrary type of values
with an address (`ptr`), an arbitrary type of nodes, and the function `node` that builds
the node of a value from the pointer to its successor.
-/
import Mathlib.Data.List.Basic
import Mathlib.Data.List.Nodup
import Mathlib.Tactic.Common

namespace PtrHeap

variable {N V : Type*}

/-- The nodes allocated at each address; `none` is an address that is not allocated. -/
abbrev Heap (N : Type*) := ℕ → Option N

/-- The heap with nothing allocated. -/
def empty : Heap N := fun _ => none

/-- Write a node at an address. -/
def set (h : Heap N) (a : ℕ) (n : N) : Heap N := fun b => if b = a then some n else h b

/-- Release an address. -/
def free (h : Heap N) (a : ℕ) : Heap N := fun b => if b = a then none else h b

/-- Write a list of nodes; of two nodes with one address the first stays. -/
def store (h : Heap N) : List (ℕ × N) → Heap N
  | [] => h
  | x :: xs => set (store h xs) x.1 x.2

@[simp] lemma empty_apply (a : ℕ) : (empty : Heap N) a = none := rfl

@[simp] lemma set_same (h : Heap N) (a : ℕ) (n : N) : set h a n a = some n := by
  simp [set]

lemma set_of_ne {a b : ℕ} (hne : b ≠ a) (h : Heap N) (n : N) : set h a n b = h b := by
  simp [set, hne]

@[simp] lemma free_same (h : Heap N) (a : ℕ) : free h a a = none := by
  simp [free]

@[simp] lemma set_set (h : Heap N) (a : ℕ) (n m : N) : set (set h a n) a m = set h a m := by
  funext b
  by_cases hb : b = a <;> simp [set, hb]

lemma set_comm {a b : ℕ} (hne : a ≠ b) (h : Heap N) (n m : N) :
    set (set h a n) b m = set (set h b m) a n := by
  funext c
  by_cases hca : c = a
  · subst hca
    simp [set, hne]
  · simp [set, hca]

/-- Releasing an address that was just written on top of an unallocated one. -/
lemma free_set {h : Heap N} {a : ℕ} (ha : h a = none) (n : N) : free (set h a n) a = h := by
  funext b
  by_cases hb : b = a
  · subst hb
    simp [ha]
  · simp [free, set, hb]

@[simp] lemma store_nil (h : Heap N) : store h [] = h := rfl

@[simp] lemma store_cons (h : Heap N) (x : ℕ × N) (xs : List (ℕ × N)) :
    store h (x :: xs) = set (store h xs) x.1 x.2 := rfl

lemma store_append (h : Heap N) (xs ys : List (ℕ × N)) :
    store h (xs ++ ys) = store (store h ys) xs := by
  induction xs with
  | nil => rfl
  | cons x xs ih => rw [List.cons_append, store_cons, store_cons, ih]

/-- The frame of `store`: other addresses keep their contents. -/
lemma store_of_notMem {h : Heap N} {xs : List (ℕ × N)} {a : ℕ} (ha : a ∉ xs.map Prod.fst) :
    store h xs a = h a := by
  induction xs with
  | nil => rfl
  | cons x xs ih =>
    rw [List.map_cons, List.mem_cons, not_or] at ha
    rw [store_cons, set_of_ne ha.1]
    exact ih ha.2

lemma store_isSome_of_mem {h : Heap N} {xs : List (ℕ × N)} {a : ℕ}
    (ha : a ∈ xs.map Prod.fst) : (store h xs a).isSome := by
  induction xs with
  | nil => simp at ha
  | cons x xs ih =>
    by_cases hax : a = x.1
    · subst hax
      simp
    · rw [store_cons, set_of_ne hax]
      exact ih (by simpa [hax] using ha)

/-- What is found in a heap with nothing else allocated is one of the stored nodes. -/
lemma mem_of_store_empty {xs : List (ℕ × N)} {a : ℕ} {n : N}
    (h : store empty xs a = some n) : (a, n) ∈ xs := by
  induction xs with
  | nil => cases h
  | cons x xs ih =>
    by_cases hax : a = x.1
    · subst hax
      rw [store_cons, set_same] at h
      cases h
      exact List.mem_cons_self
    · rw [store_cons, set_of_ne hax] at h
      exact List.mem_cons_of_mem _ (ih h)

/-- A write outside the stored addresses can be made first. -/
lemma store_set {xs : List (ℕ × N)} {a : ℕ} (ha : a ∉ xs.map Prod.fst) (h : Heap N) (n : N) :
    store (set h a n) xs = set (store h xs) a n := by
  induction xs with
  | nil => rfl
  | cons x xs ih =>
    rw [List.map_cons, List.mem_cons, not_or] at ha
    rw [store_cons, store_cons, ih ha.2, set_comm ha.1]

/-- Lists of nodes at different addresses can be stored in either order. -/
lemma store_comm {xs ys : List (ℕ × N)} (hd : ∀ x ∈ xs, x.1 ∉ ys.map Prod.fst) (h : Heap N) :
    store (store h xs) ys = store (store h ys) xs := by
  induction xs with
  | nil => rfl
  | cons x xs ih =>
    rw [store_cons, store_cons, store_set (hd x List.mem_cons_self),
      ih fun y hy => hd y (List.mem_cons_of_mem _ hy)]

/-! ## Chains -/

section Link

variable (ptr : V → ℕ) (node : V → Option ℕ → N)

/-- The pointer to the first of a list of values, `tl` when there is none. -/
def first (vs : List V) (tl : Option ℕ) : Option ℕ :=
  match vs with
  | [] => tl
  | v :: _ => some (ptr v)

/-- The nodes of a chain: every value's node points to the next value, the last one's
to `tl`. -/
def link : List V → Option ℕ → List (ℕ × N)
  | [], _ => []
  | v :: vs, tl => (ptr v, node v (first ptr vs tl)) :: link vs tl

@[simp] lemma first_cons (v : V) (vs : List V) (tl : Option ℕ) :
    first ptr (v :: vs) tl = some (ptr v) := rfl

@[simp] lemma link_cons (v : V) (vs : List V) (tl : Option ℕ) :
    link ptr node (v :: vs) tl = (ptr v, node v (first ptr vs tl)) :: link ptr node vs tl := rfl

@[simp] lemma link_map_fst (vs : List V) (tl : Option ℕ) :
    (link ptr node vs tl).map Prod.fst = vs.map ptr := by
  induction vs with
  | nil => rfl
  | cons v vs ih => simp [ih]

lemma first_append (vs ws : List V) (tl : Option ℕ) :
    first ptr (vs ++ ws) tl = first ptr vs (first ptr ws tl) := by
  cases vs <;> rfl

/-- Two chains joined: the last node of the first points to the second. -/
lemma link_append (vs ws : List V) (tl : Option ℕ) :
    link ptr node (vs ++ ws) tl = link ptr node vs (first ptr ws tl) ++ link ptr node ws tl := by
  induction vs with
  | nil => rfl
  | cons v vs ih => simp [ih, first_append]

end Link

/-! ## Walking a chain -/

/-- The nodes met from a pointer on, at most `k` of them. -/
def walk (next : N → Option ℕ) (h : Heap N) : ℕ → Option ℕ → List (ℕ × N)
  | 0, _ => []
  | _ + 1, none => []
  | k + 1, some a =>
    match h a with
    | none => []
    | some n => (a, n) :: walk next h k (next n)

section Walk

variable {ptr : V → ℕ} {node : V → Option ℕ → N} {next : N → Option ℕ}

/-- From its first pointer, walking a stored chain finds exactly its nodes. -/
lemma walk_store_link (hnext : ∀ v q, next (node v q) = q) {vs : List V}
    (hnd : (vs.map ptr).Nodup) (h : Heap N) {k : ℕ} (hk : vs.length ≤ k) :
    walk next (store h (link ptr node vs none)) k (first ptr vs none)
      = link ptr node vs none := by
  induction vs generalizing h k with
  | nil => cases k <;> rfl
  | cons v vs ih =>
    obtain ⟨k, rfl⟩ : ∃ j, k = j + 1 := ⟨k - 1, by simp at hk; omega⟩
    rw [List.map_cons, List.nodup_cons] at hnd
    simp only [first_cons, walk, link_cons, store_cons, set_same, hnext]
    rw [← store_set (by simpa using hnd.1), ih hnd.2 _ (by simpa using hk)]

end Walk

/-! ## A heap over a frame

A computation that works on a part of a heap does not see the rest.  The rest is called the
frame; `Apart` says that nothing is allocated in both. -/

/-- A heap on top of a frame. -/
def atop (h f : Heap N) : Heap N := fun a => (h a).or (f a)

/-- No address is allocated in both heaps. -/
def Apart (h f : Heap N) : Prop := ∀ a n, h a = some n → f a = none

section Over

variable {h f : Heap N} {a : ℕ} {n : N}

lemma atop_of_some (ha : h a = some n) : atop h f a = some n := by
  rw [atop, ha, Option.some_or]

lemma atop_of_none (ha : h a = none) : atop h f a = f a := by
  rw [atop, ha, Option.none_or]

lemma set_atop (h f : Heap N) (a : ℕ) (n : N) : set (atop h f) a n = atop (set h a n) f := by
  funext b
  by_cases hb : b = a <;> simp [set, atop, hb]

lemma free_atop (ha : f a = none) : free (atop h f) a = atop (free h a) f := by
  funext b
  by_cases hb : b = a
  · subst hb
    simp [atop, ha]
  · simp [free, atop, hb]

lemma store_atop (h f : Heap N) (xs : List (ℕ × N)) :
    store (atop h f) xs = atop (store h xs) f := by
  induction xs with
  | nil => rfl
  | cons x xs ih => rw [store_cons, ih, set_atop, store_cons]

lemma Apart.symm (hd : Apart h f) : Apart f h := by
  intro a n ha
  cases hb : h a with
  | none => rfl
  | some m => rw [hd a m hb] at ha; cases ha

lemma Apart.set (hd : Apart h f) (ha : f a = none) (n : N) : Apart (set h a n) f := by
  intro b m hb
  by_cases hba : b = a
  · rw [hba, ha]
  · rw [set_of_ne hba] at hb
    exact hd b m hb

lemma Apart.free (hd : Apart h f) (a : ℕ) : Apart (free h a) f := by
  intro b m hb
  by_cases hba : b = a
  · subst hba
    rw [free_same] at hb
    cases hb
  · exact hd b m (by simpa [PtrHeap.free, hba] using hb)

lemma Apart.store {xs : List (ℕ × N)} (hd : Apart h f) (hx : ∀ x ∈ xs, f x.1 = none) :
    Apart (store h xs) f := by
  induction xs with
  | nil => exact hd
  | cons x xs ih =>
    exact (ih fun y hy => hx y (List.mem_cons_of_mem x hy)).set (hx x List.mem_cons_self) x.2

/-- Every pointer of a heap leads to a node of it. -/
def Closed (next : N → Option ℕ) (h : Heap N) : Prop :=
  ∀ a n q, h a = some n → next n = some q → ∃ m, h q = some m

/-- Walking from a node of a closed heap does not leave it. -/
lemma walk_atop {next : N → Option ℕ} (hc : Closed next h) (f : Heap N) (k : ℕ) {p : Option ℕ}
    (hp : ∀ a, p = some a → ∃ m, h a = some m) :
    walk next (atop h f) k p = walk next h k p := by
  induction k generalizing p with
  | zero => rfl
  | succ k ih =>
    cases p with
    | none => rfl
    | some a =>
      obtain ⟨m, hm⟩ := hp a rfl
      simp only [walk, atop_of_some hm, hm]
      rw [ih fun q hq => hc a m q hm hq]

/-- A node that is rewritten keeps the heap closed if its pointer stays. -/
lemma Closed.set {next : N → Option ℕ} (hc : Closed next h) {m : N} (ha : h a = some m)
    (hn : next n = next m) : Closed next (set h a n) := by
  have hfound : ∀ q x, h q = some x → ∃ y, PtrHeap.set h a n q = some y := by
    intro q x hq
    by_cases hqa : q = a
    · exact ⟨n, by rw [hqa, set_same]⟩
    · exact ⟨x, by rw [set_of_ne hqa, hq]⟩
  intro b x q hb hx
  by_cases hba : b = a
  · subst hba
    rw [set_same] at hb
    cases hb
    obtain ⟨y, hy⟩ := hc b m q ha (hn ▸ hx)
    exact hfound q y hy
  · rw [set_of_ne hba] at hb
    obtain ⟨y, hy⟩ := hc b x q hb hx
    exact hfound q y hy

/-- A chain stored in a closed heap leaves it closed. -/
lemma Closed.store_link {ptr : V → ℕ} {node : V → Option ℕ → N} {next : N → Option ℕ}
    (hnext : ∀ v q, next (node v q) = q) (hc : Closed next h) (vs : List V) :
    Closed next (PtrHeap.store h (link ptr node vs none)) := by
  induction vs with
  | nil => exact hc
  | cons v vs ih =>
    have hfound : ∀ q x, PtrHeap.store h (link ptr node vs none) q = some x →
        ∃ y, PtrHeap.store h (link ptr node (v :: vs) none) q = some y := by
      intro q x hq
      by_cases hqv : q = ptr v
      · exact ⟨_, by rw [hqv, link_cons, store_cons, set_same]⟩
      · exact ⟨x, by rw [link_cons, store_cons, set_of_ne hqv, hq]⟩
    intro b x q hb hx
    by_cases hbv : b = ptr v
    · -- the new node points to the first of the others, which is stored
      rw [hbv, link_cons, store_cons, set_same] at hb
      cases hb
      rw [hnext] at hx
      cases vs with
      | nil => cases hx
      | cons w ws =>
        cases hx
        exact hfound (ptr w) _ (by rw [link_cons, store_cons, set_same])
    · rw [link_cons, store_cons, set_of_ne hbv] at hb
      obtain ⟨y, hy⟩ := ih b x q hb hx
      exact hfound q y hy

end Over

end PtrHeap
