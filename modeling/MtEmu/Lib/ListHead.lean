import Mathlib.Data.List.Nodup
import Mathlib.Logic.Function.Basic

/-!
# MtEmu.Lib.ListHead

Circular doubly linked lists with the links inside the elements (`list_head`).

A list is reached through a head that is no element.  `Ring s head xs` says that the
links of the store `s` make up a list of the elements `xs`; `ring_initListHead`,
`Ring.listAddTail` and `Ring.listDel` are the three operations, and an operation on one
list leaves every list alone that shares no node with it (`Ring.frame`).

`forEachSafe` is the loop that reads the next link before its body, so that the body may
take its element off the list; `forEachSafe_spec` is its loop rule, and says that the loop
variable ends on the head.
-/

namespace ListHead

/-- What is stored at an address: a `list_head` and the rest of the object. -/
structure Node (α β : Type) where
  next : α
  prev : α
  val : β

/-- Every address has a node. -/
abbrev Store (α β : Type) := α → Node α β

variable {α β : Type}

/-! ## links -/

/-- The links lead from `a` over `xs` to `b` and back. -/
def Seg (s : Store α β) : α → List α → α → Prop
  | a, [], b => (s a).next = b ∧ (s b).prev = a
  | a, x :: xs, b => (s a).next = x ∧ (s x).prev = a ∧ Seg s x xs b

variable {s s' : Store α β} {a b x head : α} {xs ys : List α}

theorem seg_append_cons :
    Seg s a (xs ++ x :: ys) b ↔ Seg s a xs x ∧ Seg s x ys b := by
  induction xs generalizing a with
  | nil => simp [Seg, and_assoc]
  | cons y xs ih => simp [Seg, ih, and_assoc]

/-- A segment depends on the links between its ends only. -/
theorem Seg.congr (h : Seg s a xs b) (hnext : ∀ c ∈ a :: xs, (s' c).next = (s c).next)
    (hprev : ∀ c ∈ xs ++ [b], (s' c).prev = (s c).prev) : Seg s' a xs b := by
  induction xs generalizing a with
  | nil =>
      exact ⟨(hnext a List.mem_cons_self).trans h.1, (hprev b List.mem_cons_self).trans h.2⟩
  | cons x xs ih =>
      obtain ⟨hn, hp, hrest⟩ := h
      exact ⟨(hnext a List.mem_cons_self).trans hn, (hprev x List.mem_cons_self).trans hp,
        ih hrest (fun c hc => hnext c (List.mem_cons_of_mem a hc))
          fun c hc => hprev c (List.mem_cons_of_mem x hc)⟩

/-! ## lists -/

/-- The list behind `head` has the elements `xs`. -/
structure Ring (s : Store α β) (head : α) (xs : List α) : Prop where
  nodup : (head :: xs).Nodup
  seg : Seg s head xs head

theorem Ring.congr (h : Ring s head xs) (hnext : ∀ c ∈ head :: xs, (s' c).next = (s c).next)
    (hprev : ∀ c ∈ head :: xs, (s' c).prev = (s c).prev) : Ring s' head xs :=
  ⟨h.nodup, h.seg.congr hnext fun c hc => hprev c (by simpa [or_comm] using hc)⟩

/-- A list whose nodes have not changed. -/
theorem Ring.frame (h : Ring s head xs) (hs : ∀ c ∈ head :: xs, s' c = s c) : Ring s' head xs :=
  h.congr (fun c hc => by rw [hs c hc]) fun c hc => by rw [hs c hc]

/-- The link of the head leads to the first element, or back to the head. -/
theorem Ring.next_head (h : Ring s head xs) : (s head).next = xs.headD head := by
  have hseg := h.seg
  cases xs with
  | nil => exact hseg.1
  | cons x xs => exact hseg.1

theorem Ring.next_first (h : Ring s head (x :: xs)) : (s x).next = xs.headD head := by
  obtain ⟨-, -, hseg⟩ := h.seg
  cases xs with
  | nil => exact hseg.1
  | cons y xs => exact hseg.1

/-! ## operations -/

variable [DecidableEq α]

namespace Store

variable (s : Store α β)

def setNext (a b : α) : Store α β := Function.update s a { s a with next := b }

def setPrev (a b : α) : Store α β := Function.update s a { s a with prev := b }

/-- Change what is not links. -/
def modify (a : α) (f : β → β) : Store α β := Function.update s a { s a with val := f (s a).val }

/-- `INIT_LIST_HEAD`. -/
def initListHead (a : α) : Store α β := (s.setNext a a).setPrev a a

/-- `list_add_tail`. -/
def listAddTail (new head : α) : Store α β :=
  let prev := (s head).prev
  (((s.setPrev head new).setNext new head).setPrev new prev).setNext prev new

/-- `list_del`; what the element's own links are afterwards is left open by the kernel, and
here they stay. -/
def listDel (entry : α) : Store α β :=
  let next := (s entry).next
  let prev := (s entry).prev
  (s.setPrev next prev).setNext prev next

@[simp] theorem setNext_next (a b c : α) :
    (s.setNext a b c).next = if c = a then b else (s c).next := by
  unfold setNext
  split <;> simp_all

@[simp] theorem setNext_prev (a b c : α) : (s.setNext a b c).prev = (s c).prev := by
  by_cases h : c = a <;> simp_all [setNext]

@[simp] theorem setNext_val (a b c : α) : (s.setNext a b c).val = (s c).val := by
  by_cases h : c = a <;> simp_all [setNext]

@[simp] theorem setPrev_next (a b c : α) : (s.setPrev a b c).next = (s c).next := by
  by_cases h : c = a <;> simp_all [setPrev]

@[simp] theorem setPrev_prev (a b c : α) :
    (s.setPrev a b c).prev = if c = a then b else (s c).prev := by
  unfold setPrev
  split <;> simp_all

@[simp] theorem setPrev_val (a b c : α) : (s.setPrev a b c).val = (s c).val := by
  by_cases h : c = a <;> simp_all [setPrev]

@[simp] theorem modify_next (a c : α) (f : β → β) : (s.modify a f c).next = (s c).next := by
  by_cases h : c = a <;> simp_all [modify]

@[simp] theorem modify_prev (a c : α) (f : β → β) : (s.modify a f c).prev = (s c).prev := by
  by_cases h : c = a <;> simp_all [modify]

@[simp] theorem modify_val (a c : α) (f : β → β) :
    (s.modify a f c).val = if c = a then f (s c).val else (s c).val := by
  unfold modify
  split <;> simp_all

variable {s}

theorem setNext_of_ne {a b c : α} (h : c ≠ a) : s.setNext a b c = s c :=
  Function.update_of_ne h _ _

theorem setPrev_of_ne {a b c : α} (h : c ≠ a) : s.setPrev a b c = s c :=
  Function.update_of_ne h _ _

theorem modify_of_ne {a c : α} {f : β → β} (h : c ≠ a) : s.modify a f c = s c :=
  Function.update_of_ne h _ _

@[simp] theorem initListHead_val (a c : α) : (s.initListHead a c).val = (s c).val := by
  simp [initListHead]

@[simp] theorem listAddTail_val (new head c : α) :
    (s.listAddTail new head c).val = (s c).val := by
  simp [listAddTail]

@[simp] theorem listDel_val (entry c : α) : (s.listDel entry c).val = (s c).val := by
  simp [listDel]

theorem initListHead_of_ne {a c : α} (h : c ≠ a) : s.initListHead a c = s c := by
  rw [initListHead, setPrev_of_ne h, setNext_of_ne h]

end Store

open Store

variable {new : α}

theorem ring_initListHead (s : Store α β) (a : α) : Ring (s.initListHead a) a [] :=
  ⟨List.nodup_singleton a, by simp [Seg, initListHead]⟩

/-- Only the head and its element before last change with it. -/
theorem listAddTail_of_not_mem (h : Ring s head xs) {c : α} (hc : c ∉ head :: xs)
    (hnew : c ≠ new) : s.listAddTail new head c = s c := by
  have hprev : (s head).prev ∈ head :: xs := by
    have hseg := h.seg
    cases List.eq_nil_or_concat xs with
    | inl hnil =>
        subst hnil
        exact List.mem_singleton.mpr hseg.2
    | inr hcons =>
        obtain ⟨ys, p, rfl⟩ := hcons
        rw [List.concat_eq_append, seg_append_cons] at hseg
        rw [hseg.2.2]
        simp
  have hhead : c ≠ head := fun heq => hc (heq ▸ List.mem_cons_self)
  have hlast : c ≠ (s head).prev := fun heq => hc (heq ▸ hprev)
  simp only [listAddTail]
  rw [setNext_of_ne hlast, setPrev_of_ne hnew, setNext_of_ne hnew, setPrev_of_ne hhead]

/-- **`list_add_tail`** puts a new element at the end. -/
theorem Ring.listAddTail (h : Ring s head xs) (hnew : new ∉ head :: xs) :
    Ring (s.listAddTail new head) head (xs ++ [new]) := by
  have hnodup := h.nodup
  have hseg := h.seg
  refine ⟨?_, ?_⟩
  · rw [← List.cons_append]
    exact hnodup.append (List.nodup_singleton new) (by simpa using hnew)
  have hne : new ≠ head := fun heq => hnew (heq ▸ List.mem_cons_self)
  cases List.eq_nil_or_concat xs with
  | inl hnil =>
      subst hnil
      obtain ⟨-, hprev⟩ := hseg
      simp [Seg, Store.listAddTail, hprev, hne, hne.symm]
  | inr hcons =>
      obtain ⟨ys, p, rfl⟩ := hcons
      rw [List.concat_eq_append] at *
      rw [seg_append_cons] at hseg
      obtain ⟨hfst, -, hprev⟩ := hseg
      simp only [List.mem_cons, List.mem_append, List.not_mem_nil, or_false, not_or] at hnew
      simp only [List.nodup_cons, List.mem_append, List.mem_singleton, not_or,
        List.nodup_append] at hnodup
      have hmore : Seg (s.listAddTail new head) head ys p := by
        refine hfst.congr (fun c hc => ?_) fun c hc => ?_
        · have hcp : c ≠ p := by
            rcases List.mem_cons.mp hc with rfl | hc
            · exact hnodup.1.2
            · exact hnodup.2.2.2 c hc p rfl
          have hcn : c ≠ new := by
            rintro rfl
            rcases List.mem_cons.mp hc with rfl | hc
            · exact hne rfl
            · exact hnew.2.1 hc
          simp [Store.listAddTail, hprev, hcp, hcn]
        · have hch : c ≠ head := by
            rintro rfl
            rcases List.mem_append.mp hc with hc | hc
            · exact hnodup.1.1 hc
            · exact hnodup.1.2 (List.mem_singleton.mp hc)
          have hcn : c ≠ new := by
            rintro rfl
            rcases List.mem_append.mp hc with hc | hc
            · exact hnew.2.1 hc
            · exact hnew.2.2 (List.mem_singleton.mp hc)
          simp [Store.listAddTail, hch, hcn]
      have hlast : Seg (s.listAddTail new head) p [new] head := by
        simp [Seg, Store.listAddTail, hprev, hne.symm, hnew.2.2]
      rw [List.append_assoc]
      exact seg_append_cons.mpr ⟨hmore, hlast⟩

theorem listDel_of_not_mem (h : Ring s head (x :: xs)) {c : α} (hc : c ∉ head :: xs) :
    s.listDel x c = s c := by
  have hnext : (s x).next ∈ head :: xs := by
    rw [h.next_first]
    cases xs <;> simp
  have hprev : (s x).prev = head := h.seg.2.1
  have hn : c ≠ (s x).next := fun heq => hc (heq ▸ hnext)
  have hp : c ≠ head := fun heq => hc (heq ▸ List.mem_cons_self)
  simp only [Store.listDel, hprev]
  rw [setNext_of_ne hp, setPrev_of_ne hn]

/-- **`list_del`** takes the first element off. -/
theorem Ring.listDel (h : Ring s head (x :: xs)) : Ring (s.listDel x) head xs := by
  have hnodup := h.nodup
  obtain ⟨-, hprev, hseg⟩ := h.seg
  have hcut : (head :: xs).Nodup := hnodup.sublist ((List.sublist_cons_self x xs).cons_cons head)
  refine ⟨hcut, ?_⟩
  cases xs with
  | nil =>
      obtain ⟨hnext, -⟩ := hseg
      simp [Seg, Store.listDel, hprev, hnext]
  | cons y ys =>
      obtain ⟨hnext, -, hrest⟩ := hseg
      obtain ⟨hhead, hy⟩ := List.nodup_cons.mp hcut
      refine ⟨by simp [Store.listDel, hprev, hnext], by simp [Store.listDel, hprev, hnext], ?_⟩
      refine hrest.congr (fun c hc => ?_) fun c hc => ?_
      · have hch : c ≠ head := fun heq => hhead (heq ▸ hc)
        simp [Store.listDel, hprev, hch]
      · have hcy : c ≠ y := by
          rintro rfl
          rcases List.mem_append.mp hc with hc | hc
          · exact (List.nodup_cons.mp hy).1 hc
          · exact hhead (List.mem_singleton.mp hc ▸ List.mem_cons_self)
        simp [Store.listDel, hnext, hcy]

/-! ## loops -/

/-- `list_for_each_entry` that collects its elements, from `pos` on; `none` when the list
has more than `fuel` of them. -/
def Store.elements (s : Store α β) (head : α) : Nat → α → Option (List α)
  | 0, pos => if pos = head then some [] else none
  | fuel + 1, pos =>
      if pos = head then some [] else (s.elements head fuel (s pos).next).map (pos :: ·)

theorem elements_of_seg {fuel : Nat} (hseg : Seg s a xs head) (hhead : head ∉ xs)
    (hfuel : xs.length ≤ fuel) : s.elements head fuel (s a).next = some xs := by
  induction xs generalizing a fuel with
  | nil => cases fuel <;> simp [Store.elements, hseg.1]
  | cons x xs ih =>
      obtain ⟨hnext, -, hrest⟩ := hseg
      obtain ⟨hx, hxs⟩ := not_or.mp (fun h => hhead (List.mem_cons.mpr h))
      obtain ⟨fuel, rfl⟩ := Nat.exists_eq_succ_of_ne_zero (n := fuel)
        (by rw [List.length_cons] at hfuel; omega)
      rw [hnext, Store.elements, if_neg (Ne.symm hx), ih hrest hxs (Nat.le_of_succ_le_succ hfuel)]
      rfl

/-- A walk over a list reads its elements in order. -/
theorem Ring.elements (h : Ring s head xs) {fuel : Nat} (hfuel : xs.length ≤ fuel) :
    s.elements head fuel (s head).next = some xs :=
  elements_of_seg h.seg (List.nodup_cons.mp h.nodup).1 hfuel

variable {σ : Type}

/-- `list_for_each_entry_safe`: `body` runs on `pos`, with `n` already read, and may take
`pos` off the list.  The loop returns its variable; `none` when a body does not return or
there are more than `fuel` rounds. -/
def forEachSafe (store : σ → Store α β) (body : α → σ → Option σ) (head : α) :
    Nat → α → α → σ → Option (α × σ)
  | 0, _, _, _ => none
  | fuel + 1, pos, n, st =>
      if pos = head then some (pos, st)
      else (body pos st).bind fun st' =>
        forEachSafe store body head fuel n (store st' n).next st'

/-- **Loop rule**: a body that takes the first element off the list, and keeps an
invariant with it, is run on every element, and the loop variable ends on the head. -/
theorem forEachSafe_spec (store : σ → Store α β) (body : α → σ → Option σ)
    (inv : List α → σ → Prop) (hring : ∀ xs st, inv xs st → Ring (store st) head xs)
    (hbody : ∀ x xs st, inv (x :: xs) st → ∃ st', body x st = some st' ∧ inv xs st')
    {st : σ} (h : inv xs st) {fuel : Nat} (hfuel : xs.length < fuel) :
    ∃ st', forEachSafe store body head fuel (store st head).next
      (store st (store st head).next).next st = some (head, st') ∧ inv [] st' := by
  induction xs generalizing st fuel with
  | nil =>
      obtain ⟨fuel, rfl⟩ := Nat.exists_eq_succ_of_ne_zero (Nat.ne_of_gt hfuel)
      have hnext : (store st head).next = head := (hring _ _ h).next_head
      exact ⟨st, by rw [forEachSafe, hnext, if_pos rfl], h⟩
  | cons x xs ih =>
      obtain ⟨fuel, rfl⟩ := Nat.exists_eq_succ_of_ne_zero (Nat.ne_zero_of_lt hfuel)
      have hr := hring _ _ h
      have hne : x ≠ head := fun heq => (List.nodup_cons.mp hr.nodup).1 (heq ▸ List.mem_cons_self)
      have hfst : (store st head).next = x := hr.next_head
      obtain ⟨st', hst', hinv⟩ := hbody x xs st h
      have hn : (store st x).next = (store st' head).next :=
        hr.next_first.trans (hring _ _ hinv).next_head.symm
      obtain ⟨out, hout, hend⟩ := ih hinv (Nat.lt_of_succ_lt_succ hfuel)
      refine ⟨out, ?_, hend⟩
      rw [hfst, forEachSafe, if_neg hne, hst', Option.bind_some, hn, hout]

end ListHead
