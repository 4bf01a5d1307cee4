import Mathlib

/-!
# Circular doubly linked lists with a sentinel

C code keeps a list of nodes in a cycle through two fields, `x->next` and `x->prev`, around a
sentinel node `h` that holds no element: an empty list is `h->next == h->prev == h`. Here the
two fields are functions `next prev : α → α` on the nodes (`Ptrs`), and `Links h p l` says that
they hold the list `l`: following `next` from `h` visits the nodes of `l` in order and comes
back to `h`, and `prev` goes round the other way.

The two updates such code makes are `unlink`, which takes a node out
(`x->next->prev = x->prev; x->prev->next = x->next;`), and `pushFront`, which puts a node
after the sentinel (`x->next = h->next; x->prev = h; h->next->prev = x; h->next = x;`). Each
is a sequence of single-field writes in the order the C makes them, and `Links.unlink` and
`Links.pushFront` say which list they leave. `scan` is the loop
`for(x = start; x != h; x = f(x)) if(test(x)) return x;`, and on a well-linked list it is
`List.find?` over the nodes, forwards along `next` and backwards along `prev`
(`Links.scan_next`, `Links.scan_prev`); `walk` reads the list back off the pointers.

The lemmas are about `Path f a l b`, "following `f` from `a` visits `l` and then reaches `b`",
which both directions of a cycle are instances of: how it splits at a node (`path_append`),
that writes at nodes off the path leave it (`Path.congr`, `Path.frame`), and the two edits a
cycle needs, bypassing a node (`Path.bypass`) and moving the last link (`Path.redirect`).
-/

set_option autoImplicit false

namespace DList

variable {α : Type*}

/-- Following `f` from `a` visits the nodes `l` in order, then reaches `b`. -/
def Path (f : α → α) : α → List α → α → Prop
  | a, [], b => f a = b
  | a, x :: l, b => f a = x ∧ Path f x l b

/-- The two link fields of every node. -/
structure Ptrs (α : Type*) where
  next : α → α
  prev : α → α

/-- The nodes `l` are linked in order between two visits of the sentinel `h`. -/
structure Links (h : α) (p : Ptrs α) (l : List α) : Prop where
  nodup : (h :: l).Nodup
  fwd : Path p.next h l h
  bwd : Path p.prev h l.reverse h

/-- The `n` nodes from `x` on along `f`. -/
def walk (f : α → α) : Nat → α → List α
  | 0, _ => []
  | n + 1, x => x :: walk f n (f x)

section Updates

variable [DecidableEq α]

/-- `x->next->prev = x->prev; x->prev->next = x->next;` -/
def Ptrs.unlink (p : Ptrs α) (x : α) : Ptrs α :=
  let prev := Function.update p.prev (p.next x) (p.prev x)
  ⟨Function.update p.next (prev x) (p.next x), prev⟩

/-- `x->next = h->next; x->prev = h; h->next->prev = x; h->next = x;` -/
def Ptrs.pushFront (h : α) (p : Ptrs α) (x : α) : Ptrs α :=
  let next₁ := Function.update p.next x (p.next h)
  let prev₁ := Function.update p.prev x h
  ⟨Function.update next₁ h x, Function.update prev₁ (next₁ h) x⟩

/-- The loop `for(x = start; x != h; x = f(x)) if(test(x)) return x;`, for at most `fuel`
rounds: `none` when it comes back to `h`. -/
def scan (h : α) (f : α → α) (test : α → Bool) : Nat → α → Option α
  | 0, _ => none
  | fuel + 1, x => if x = h then none else if test x then some x else scan h f test fuel (f x)

end Updates

/-! ## Paths -/

section Path

variable {f g : α → α}

@[simp] theorem path_nil {a b : α} : Path f a [] b ↔ f a = b := Iff.rfl

@[simp] theorem path_cons {a b x : α} {l : List α} : Path f a (x :: l) b ↔ f a = x ∧ Path f x l b :=
  Iff.rfl

/-- The first step of a path goes to its first node, or to its end. -/
theorem Path.first {a b : α} {l : List α} (h : Path f a l b) : f a = l.headD b := by
  cases l with
  | nil => exact h
  | cons x l => exact h.1

theorem path_append {a b x : α} {l₁ l₂ : List α} :
    Path f a (l₁ ++ x :: l₂) b ↔ Path f a l₁ x ∧ Path f x l₂ b := by
  induction l₁ generalizing a with
  | nil => rfl
  | cons y l₁ ih => simp only [List.cons_append, path_cons, ih, and_assoc]

/-- A path reads `f` at its start and its nodes only. -/
theorem Path.congr {a a' b : α} {l : List α} (h : Path f a l b) (ha : g a' = f a)
    (hl : ∀ y ∈ l, g y = f y) : Path g a' l b := by
  induction l generalizing a a' with
  | nil => exact ha.trans h
  | cons x l ih =>
    refine ⟨ha.trans h.1, ih h.2 (hl x List.mem_cons_self) fun y hy => hl y (List.mem_cons_of_mem x hy)⟩

theorem Path.walk {a b : α} {l : List α} (hp : Path f a l b) : DList.walk f l.length (f a) = l := by
  induction l generalizing a with
  | nil => rfl
  | cons x l ih => rw [List.length_cons, DList.walk, hp.1, ih hp.2]

theorem getLastD_reverse (l : List α) (a : α) : l.reverse.getLastD a = l.headD a := by
  cases l with
  | nil => rfl
  | cons x l => simp [List.getLastD_eq_getLast?]

variable [DecidableEq α]

/-- A write at a node off the path leaves it. -/
theorem Path.frame {a b z v : α} {l : List α} (h : Path f a l b) (hz : z ∉ a :: l) :
    Path (Function.update f z v) a l b :=
  h.congr (Function.update_of_ne (fun e => hz (List.mem_cons.mpr (.inl e.symm))) v f)
    fun y hy => Function.update_of_ne (fun e => hz (List.mem_cons.mpr (.inr (by rw [← e]; exact hy)))) v f

/-- Pointing the last link of a path elsewhere. -/
theorem Path.redirect {a b c : α} {l : List α} (h : Path f a l b) (hnd : (a :: l).Nodup) :
    Path (Function.update f (l.getLastD a) c) a l c := by
  induction l generalizing a with
  | nil => simp
  | cons x l ih =>
    obtain ⟨hax, hrest⟩ := h
    have hlast : l.getLastD x ∈ x :: l := List.getLastD_mem_cons
    have hne : a ≠ l.getLastD x := fun e => (List.nodup_cons.mp hnd).1 (e ▸ hlast)
    refine ⟨by rw [List.getLastD_cons, Function.update_of_ne hne]; exact hax, ?_⟩
    rw [List.getLastD_cons]
    exact ih hrest (List.nodup_cons.mp hnd).2

/-- Taking the node `x` out of a path: the link into it now goes where it went. -/
theorem Path.bypass {a b x : α} {l₁ l₂ : List α} (h : Path f a (l₁ ++ x :: l₂) b)
    (hnd : (a :: (l₁ ++ x :: l₂)).Nodup) :
    Path (Function.update f (l₁.getLastD a) (f x)) a (l₁ ++ l₂) b := by
  induction l₁ generalizing a with
  | nil =>
    obtain ⟨-, hrest⟩ := h
    rw [List.getLastD_nil, List.nil_append]
    cases l₂ with
    | nil => exact (Function.update_self a (f x) f).trans (show f x = b from hrest)
    | cons y l₂ =>
      -- the node before `x` is `a`, which the rest of the path does not read
      have ha : a ∉ y :: l₂ := fun hm =>
        (List.nodup_cons.mp hnd).1 (List.mem_cons_of_mem x hm)
      exact ⟨(Function.update_self a (f x) f).trans hrest.1, hrest.2.frame ha⟩
  | cons z l₁ ih =>
    obtain ⟨haz, hrest⟩ := h
    have hlast : l₁.getLastD z ∈ z :: l₁ := List.getLastD_mem_cons
    have hne : a ≠ l₁.getLastD z := fun e =>
      (List.nodup_cons.mp hnd).1 (e ▸ List.mem_append_left _ hlast)
    refine ⟨by rw [List.getLastD_cons, Function.update_of_ne hne]; exact haz, ?_⟩
    rw [List.getLastD_cons]
    exact ih hrest (List.nodup_cons.mp hnd).2

/-- Along a path that ends at `h` and does not meet it, `scan` finds what `find?` finds. -/
theorem Path.scan {h a : α} {l : List α} (hp : Path f a l h) (hh : h ∉ l) (test : α → Bool)
    {fuel : Nat} (hfuel : l.length < fuel) : scan h f test fuel (f a) = l.find? test := by
  induction l generalizing a fuel with
  | nil =>
    obtain _ | fuel := fuel
    · exact absurd hfuel (Nat.lt_irrefl 0)
    simp [DList.scan, show f a = h from hp]
  | cons x l ih =>
    obtain _ | fuel := fuel
    · exact absurd hfuel (Nat.not_lt_zero _)
    have hx : x ≠ h := fun e => hh (e ▸ List.mem_cons_self)
    rw [hp.1, DList.scan, if_neg hx, List.find?_cons]
    cases test x with
    | true => rfl
    | false =>
      show DList.scan h f test fuel (f x) = l.find? test
      exact ih hp.2 (fun hm => hh (List.mem_cons_of_mem x hm)) (by simp at hfuel; omega)

end Path

/-! ## Finding in a list -/

section Find

/-- Searching with a test that fewer nodes pass finds the same node, when that node passes
it. -/
theorem find?_of_le {l : List α} {p q : α → Bool} (hle : ∀ x ∈ l, q x = true → p x = true)
    (hq : ∀ a, l.find? p = some a → q a = true) : l.find? q = l.find? p := by
  induction l with
  | nil => rfl
  | cons x l ih =>
    have hrest : ∀ y ∈ l, q y = true → p y = true := fun y hy => hle y (List.mem_cons_of_mem x hy)
    cases hp : p x with
    | true =>
      have hx : q x = true := hq x (by simp [hp])
      simp [hp, hx]
    | false =>
      have hx : q x = false := by
        cases hqx : q x
        · rfl
        · exact absurd (hle x List.mem_cons_self hqx) (by simp [hp])
      simp only [List.find?_cons, hp, hx]
      exact ih hrest fun a ha => hq a (by simp [hp, ha])

/-- The only node of the list that passes the test is found. -/
theorem find?_of_unique {l : List α} {p : α → Bool} {a : α} (ha : a ∈ l) (hpa : p a = true)
    (huniq : ∀ x ∈ l, p x = true → x = a) : l.find? p = some a := by
  obtain ⟨b, hb⟩ := Option.isSome_iff_exists.mp (List.find?_isSome.mpr ⟨a, ha, hpa⟩)
  rw [hb, huniq b (List.mem_of_find?_eq_some hb) (List.find?_some hb)]

variable [BEq α] [LawfulBEq α]

/-- Taking out a node that fails the test changes no search. -/
theorem find?_erase_of_false {l : List α} {p : α → Bool} {a : α} (h : p a = false) :
    (l.erase a).find? p = l.find? p := by
  induction l with
  | nil => rfl
  | cons x l ih =>
    by_cases hx : x = a
    · subst hx
      simp [h]
    · rw [List.erase_cons_tail (by simpa using hx)]
      simp [List.find?_cons, ih]

end Find

/-! ## The list the pointers hold -/

section Links

variable {h : α} {p : Ptrs α} {l : List α}

/-- The sentinel pointing at itself both ways holds the empty list. -/
theorem links_nil (hn : p.next h = h) (hp : p.prev h = h) : Links h p [] :=
  ⟨List.nodup_singleton h, hn, hp⟩

theorem Links.sentinel_not_mem (hl : Links h p l) : h ∉ l := (List.nodup_cons.mp hl.nodup).1

/-- The node after `x` is the one `l` has after it, or the sentinel. -/
theorem Links.next_of_split {l₁ l₂ : List α} {x : α} (hl : Links h p (l₁ ++ x :: l₂)) :
    p.next x = l₂.headD h :=
  (path_append.mp hl.fwd).2.first

theorem Links.prev_of_split {l₁ l₂ : List α} {x : α} (hl : Links h p (l₁ ++ x :: l₂)) :
    p.prev x = l₁.getLastD h := by
  have hb := hl.bwd
  rw [List.reverse_append, List.reverse_cons, List.append_assoc, List.singleton_append] at hb
  rw [(path_append.mp hb).2.first, ← getLastD_reverse, List.reverse_reverse]

theorem Links.nodup_reverse (hl : Links h p l) : (h :: l.reverse).Nodup := by
  have := hl.nodup
  simp only [List.nodup_cons, List.mem_reverse, List.nodup_reverse] at this ⊢
  exact this

theorem Links.walk_next (hl : Links h p l) : walk p.next l.length (p.next h) = l :=
  hl.fwd.walk

variable [DecidableEq α]

/-- `unlink` takes `x` out of the list. -/
theorem Links.unlink [BEq α] [LawfulBEq α] {x : α} (hl : Links h p l) (hx : x ∈ l) : Links h (p.unlink x) (l.erase x) := by
  obtain ⟨l₁, l₂, rfl⟩ := List.append_of_mem hx
  have hnd := hl.nodup
  have hsplit := List.nodup_append.mp (List.nodup_cons.mp hnd).2
  have hx₁ : x ∉ l₁ := fun hm => hsplit.2.2 x hm x List.mem_cons_self rfl
  have hxh : x ≠ h := fun e => hl.sentinel_not_mem (e ▸ hx)
  rw [List.erase_append_right _ hx₁, List.erase_cons_head]
  -- the two writes go to the nodes on either side of `x`
  have hnext := hl.next_of_split
  have hnx : p.next x ≠ x := by
    rw [hnext]
    cases l₂ with
    | nil => exact hxh.symm
    | cons y l₂ => exact fun e => (List.nodup_cons.mp hsplit.2.1).1 (e ▸ List.mem_cons_self)
  have hpx : Function.update p.prev (p.next x) (p.prev x) x = l₁.getLastD h := by
    rw [Function.update_of_ne hnx.symm, hl.prev_of_split]
  refine ⟨hnd.sublist ?_, ?_, ?_⟩
  · exact ((List.sublist_cons_self x l₂).append_left l₁).cons_cons h
  · show Path (Function.update p.next (Function.update p.prev (p.next x) (p.prev x) x) (p.next x))
      h (l₁ ++ l₂) h
    rw [hpx]
    exact hl.fwd.bypass hnd
  · have hb := hl.bwd
    have hnb := hl.nodup_reverse
    simp only [List.reverse_append, List.reverse_cons, List.append_assoc, List.singleton_append]
      at hb hnb ⊢
    have := hb.bypass hnb
    rwa [getLastD_reverse, ← hnext] at this

/-- `pushFront` puts a node that is not linked in front of the list. -/
theorem Links.pushFront {x : α} (hl : Links h p l) (hx : x ∉ h :: l) :
    Links h (p.pushFront h x) (x :: l) := by
  have hxh : x ≠ h := fun e => hx (e ▸ List.mem_cons_self)
  have hxl : x ∉ l := fun hm => hx (List.mem_cons_of_mem h hm)
  -- `h->next` is the first node, or `h`: either way not `x`
  have hfirst : p.next h ∈ h :: l := by
    rw [hl.fwd.first]
    cases l with
    | nil => exact List.mem_cons_self
    | cons y l => exact List.mem_cons_of_mem h List.mem_cons_self
  have hnh : Function.update p.next x (p.next h) h = p.next h := Function.update_of_ne hxh.symm _ _
  refine ⟨?_, ⟨by simp [Ptrs.pushFront], ?_⟩, ?_⟩
  · exact List.nodup_cons.mpr ⟨by simp [hxh.symm, hl.sentinel_not_mem],
      List.nodup_cons.mpr ⟨hxl, (List.nodup_cons.mp hl.nodup).2⟩⟩
  · refine hl.fwd.congr (by simp [Ptrs.pushFront, hxh]) fun y hy => ?_
    have hyh : y ≠ h := fun e => hl.sentinel_not_mem (e ▸ hy)
    have hyx : y ≠ x := fun e => hxl (e ▸ hy)
    simp [Ptrs.pushFront, hyh, hyx]
  · simp only [Ptrs.pushFront, List.reverse_cons, hnh]
    refine path_append.mpr ⟨?_, ?_⟩
    · -- the old last link of the backward path, out of the first node, now ends at `x`
      have hframe := hl.bwd.frame (z := x) (v := h) (by simpa using hx)
      have := hframe.redirect (c := x) hl.nodup_reverse
      rwa [getLastD_reverse, ← hl.fwd.first] at this
    · have hxn : x ≠ p.next h := fun e => hx (e ▸ hfirst)
      simp [hxn]

/-- `brelse`'s move of a node to the front: `unlink`, then `pushFront`. -/
theorem Links.moveFront [BEq α] [LawfulBEq α] {x : α} (hl : Links h p l) (hx : x ∈ l) :
    Links h ((p.unlink x).pushFront h x) (x :: l.erase x) := by
  have hu := hl.unlink hx
  refine hu.pushFront fun hm => ?_
  rcases List.mem_cons.mp hm with e | hm
  · exact hl.sentinel_not_mem (e ▸ hx)
  · exact (List.Nodup.not_mem_erase (List.nodup_cons.mp hl.nodup).2) hm

/-- Putting the nodes `xs` in front one after the other, as an initialisation loop does. -/
theorem Links.foldl_pushFront (hl : Links h p l) (xs : List α) (hnd : (h :: (xs ++ l)).Nodup) :
    Links h (xs.foldl (Ptrs.pushFront h) p) (xs.reverse ++ l) := by
  induction xs generalizing p l with
  | nil => exact hl
  | cons x xs ih =>
    rw [List.cons_append] at hnd
    have hx : x ∉ h :: l := by
      intro hm
      rcases List.mem_cons.mp hm with e | hm
      · exact (List.nodup_cons.mp hnd).1 (List.mem_cons.mpr (.inl e.symm))
      · exact (List.nodup_cons.mp (List.nodup_cons.mp hnd).2).1 (List.mem_append_right xs hm)
    have hnd' : (h :: (xs ++ x :: l)).Nodup :=
      hnd.perm (List.Perm.cons h (List.perm_middle.symm))
    rw [List.foldl_cons, List.reverse_cons, List.append_assoc, List.singleton_append]
    exact ih (hl.pushFront hx) hnd'

/-- The forward scan from `h->next` is `find?` over the list. -/
theorem Links.scan_next (hl : Links h p l) (test : α → Bool) {fuel : Nat} (hfuel : l.length < fuel) :
    scan h p.next test fuel (p.next h) = l.find? test :=
  hl.fwd.scan hl.sentinel_not_mem test hfuel

/-- The backward scan from `h->prev` is `find?` over the list from its end. -/
theorem Links.scan_prev (hl : Links h p l) (test : α → Bool) {fuel : Nat} (hfuel : l.length < fuel) :
    scan h p.prev test fuel (p.prev h) = l.reverse.find? test :=
  hl.bwd.scan (by simpa using hl.sentinel_not_mem) test (by simpa using hfuel)

end Links

end DList
