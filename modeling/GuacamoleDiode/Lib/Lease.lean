import Mathlib.Order.Basic
import Mathlib.Data.List.Pairwise

/-!
# Leases

A place that is let to one tenant after another. Requests of tenants and payload for them wait
in one queue, which keeps their order and may lose some of them. Whoever asks is later than
everybody who is known so far, and whoever sends payload has been let in before and is not
earlier than anybody else. Then payload never reaches a tenant that it is not meant for, however
long it has waited.

## Main definitions

- `Lease`: the queue, the tenants that have been let in and the present one
- `Lease.Step`: what may happen to them
- `Lease.Wf`: the invariant

## Main results

- `Lease.Wf.step`: the invariant is kept
- `Lease.Wf.served`: payload that is handed over is meant for the present tenant
-/

/-- What waits in the queue. -/
inductive Lease.Letter (α : Type*) where
  | request (who : α)
  | payload (who : α)
  deriving DecidableEq, Repr

/-- A place, its tenants and what is on its way to them. -/
structure Lease (α : Type*) where
  queue : List (Lease.Letter α) := []
  /-- the tenants that have been let in, oldest first -/
  opened : List α := []
  /-- the present tenant -/
  bound : Option α := none

namespace Lease

variable {α : Type*}

def Letter.who : Letter α → α
  | .request who => who
  | .payload who => who

/-- Everybody who is known. -/
def known (s : Lease α) : List α := s.opened ++ s.queue.map Letter.who

variable [PartialOrder α]

/-- Everything that may happen. -/
inductive Step (s s' : Lease α) : Prop where
  | ask (who : α) (later : ∀ m ∈ s.known, m < who) (queue : s'.queue = s.queue ++ [.request who])
      (opened : s'.opened = s.opened) (bound : s'.bound = s.bound)
  | post (who : α) (let_in : who ∈ s.opened) (latest : ∀ m ∈ s.known, m ≤ who)
      (queue : s'.queue = s.queue ++ [.payload who]) (opened : s'.opened = s.opened)
      (bound : s'.bound = s.bound)
  /-- letters get lost or are dealt with, or the tenant moves out -/
  | lose (queue : s'.queue.Sublist s.queue) (opened : s'.opened = s.opened)
      (bound : ∀ m, s'.bound = some m → s.bound = some m)
  | grant (who : α) (queue : s.queue = .request who :: s'.queue)
      (opened : s'.opened = s.opened ++ [who]) (bound : s'.bound = some who)

/-- A tenant is not later than a letter. A request is the first letter of its tenant. -/
def Before (m : α) : Letter α → Prop
  | .request who => m < who
  | .payload who => m ≤ who

/-- The order in which the tenants come shows everywhere. -/
structure Wf (s : Lease α) : Prop where
  queue : s.queue.Pairwise fun a b => Before a.who b
  opened : ∀ m ∈ s.opened, ∀ l ∈ s.queue, Before m l
  ascending : s.opened.Pairwise (· < ·)
  payload : ∀ who, .payload who ∈ s.queue → who ∈ s.opened
  bound : ∀ m, s.bound = some m → m ∈ s.opened ∧ ∀ m' ∈ s.opened, m' ≤ m

section

variable {s s' : Lease α} {m who : α} {l : Letter α}

theorem Before.le (h : Before m l) : m ≤ l.who := by
  cases l with
  | request who => exact le_of_lt h
  | payload who => exact h

omit [PartialOrder α] in
theorem mem_known_of_mem_queue (h : l ∈ s.queue) : l.who ∈ s.known :=
  List.mem_append_right _ (List.mem_map_of_mem h)

theorem wf_init : Wf ({} : Lease α) := by
  refine ⟨List.Pairwise.nil, ?_, List.Pairwise.nil, ?_, ?_⟩ <;> simp

/-- A letter that is not earlier than anybody joins the queue. -/
theorem Wf.push (h : Wf s) (hl : ∀ m ∈ s.known, Before m l)
    (hpayload : ∀ who, l = .payload who → who ∈ s.opened) (hqueue : s'.queue = s.queue ++ [l])
    (hopened : s'.opened = s.opened) (hbound : s'.bound = s.bound) : Wf s' := by
  refine ⟨?_, ?_, hopened ▸ h.ascending, ?_, ?_⟩
  · rw [hqueue, List.pairwise_append]
    refine ⟨h.queue, List.pairwise_singleton _ _, fun a ha b hb => ?_⟩
    obtain rfl := List.mem_singleton.mp hb
    exact hl _ (mem_known_of_mem_queue ha)
  · rw [hopened, hqueue]
    intro m hm b hb
    rcases List.mem_append.mp hb with hb | hb
    · exact h.opened m hm b hb
    · obtain rfl := List.mem_singleton.mp hb
      exact hl m (List.mem_append_left _ hm)
  · rw [hopened, hqueue]
    intro who hwho
    rcases List.mem_append.mp hwho with hwho | hwho
    · exact h.payload who hwho
    · exact hpayload who (List.mem_singleton.mp hwho).symm
  · rw [hopened, hbound]
    exact h.bound

theorem Wf.grant (h : Wf s) (hqueue : s.queue = .request who :: s'.queue)
    (hopened : s'.opened = s.opened ++ [who]) (hbound : s'.bound = some who) : Wf s' := by
  have hrest := h.queue
  rw [hqueue, List.pairwise_cons] at hrest
  have hnew : ∀ m ∈ s.opened, m < who := by
    intro m hm
    exact h.opened m hm (.request who) (hqueue ▸ List.mem_cons_self)
  refine ⟨hrest.2, ?_, ?_, ?_, ?_⟩
  · rw [hopened]
    intro m hm b hb
    rcases List.mem_append.mp hm with hm | hm
    · exact h.opened m hm b (hqueue ▸ List.mem_cons_of_mem _ hb)
    · obtain rfl := List.mem_singleton.mp hm
      exact hrest.1 b hb
  · rw [hopened, List.pairwise_append]
    refine ⟨h.ascending, List.pairwise_singleton _ _, fun m hm b hb => ?_⟩
    obtain rfl := List.mem_singleton.mp hb
    exact hnew m hm
  · rw [hopened]
    intro who' hwho'
    exact List.mem_append_left _ (h.payload who' (hqueue ▸ List.mem_cons_of_mem _ hwho'))
  · rw [hopened, hbound]
    intro m hm
    obtain rfl := Option.some.inj hm
    refine ⟨List.mem_append_right _ (List.mem_singleton_self _), fun m' hm' => ?_⟩
    rcases List.mem_append.mp hm' with hm' | hm'
    · exact (hnew m' hm').le
    · exact (List.mem_singleton.mp hm').le

theorem Wf.step (h : Wf s) (hstep : Step s s') : Wf s' := by
  cases hstep with
  | ask who hlater hqueue hopened hbound =>
    exact h.push (l := .request who) hlater (by simp) hqueue hopened hbound
  | post who hin hlatest hqueue hopened hbound =>
    refine h.push (l := .payload who) hlatest (fun who' heq => ?_) hqueue hopened hbound
    obtain rfl := Letter.payload.inj heq
    exact hin
  | lose hsub hopened hsame =>
    refine ⟨h.queue.sublist hsub, ?_, hopened ▸ h.ascending, ?_, ?_⟩
    · rw [hopened]
      exact fun m hm l hl => h.opened m hm l (hsub.subset hl)
    · rw [hopened]
      exact fun who hwho => h.payload who (hsub.subset hwho)
    · rw [hopened]
      exact fun m hm => h.bound m (hsame m hm)
  | grant who hqueue hopened hbound => exact h.grant hqueue hopened hbound

/-- Payload that is handed over is meant for the present tenant. -/
theorem Wf.served (h : Wf s) {queue : List (Letter α)} (hhead : s.queue = .payload who :: queue)
    (hbound : s.bound = some m) : m = who := by
  have hmem : .payload who ∈ s.queue := hhead ▸ List.mem_cons_self
  obtain ⟨hopened, hlast⟩ := h.bound m hbound
  exact le_antisymm (h.opened m hopened _ hmem) (hlast who (h.payload who hmem))

/-- Nobody becomes known unless the queue gets longer. -/
theorem Step.known_subset (hstep : Step s s') (hlength : s'.queue.length ≤ s.queue.length) :
    s'.known ⊆ s.known := by
  intro m hm
  cases hstep with
  | ask who _ hqueue =>
    rw [hqueue, List.length_append, List.length_singleton] at hlength
    omega
  | post who _ _ hqueue =>
    rw [hqueue, List.length_append, List.length_singleton] at hlength
    omega
  | lose hsub hopened _ =>
    rcases List.mem_append.mp hm with hm | hm
    · exact List.mem_append_left _ (hopened ▸ hm)
    · exact List.mem_append_right _ ((hsub.map _).subset hm)
  | grant who hqueue hopened _ =>
    rcases List.mem_append.mp hm with hm | hm
    · rw [hopened] at hm
      rcases List.mem_append.mp hm with hm | hm
      · exact List.mem_append_left _ hm
      · obtain rfl := List.mem_singleton.mp hm
        exact mem_known_of_mem_queue (hqueue ▸ List.mem_cons_self)
    · refine List.mem_append_right _ ?_
      rw [hqueue]
      exact List.mem_cons_of_mem _ hm

/-- Nobody moves out of the list of those who have been let in. -/
theorem Step.opened_subset (hstep : Step s s') : s.opened ⊆ s'.opened := by
  cases hstep with
  | ask _ _ _ hopened => exact hopened.symm ▸ List.Subset.refl _
  | post _ _ _ _ hopened => exact hopened.symm ▸ List.Subset.refl _
  | lose _ hopened => exact hopened.symm ▸ List.Subset.refl _
  | grant _ _ hopened => exact hopened.symm ▸ List.subset_append_left _ _

end

end Lease
