import JustKit.Aio.Addresses
import JustKit.Pool.Renaming

/-! Requests by address and requests by number. The addresses are used again after a `free`, and still every run of
`jk_aio.c` is a run of the system that numbers the requests in the order in which they are allocated. -/
namespace JustKit.Aio

/-- A thread that names its request in another way. -/
def Thread.map (g : ℕ → ℕ) : Thread → Thread
  | .idle => .idle
  | .reading count => .reading count
  | .polling processed => .polling processed
  | .finishing r processed => .finishing (g r) processed
  | .destroying r processed => .destroying (g r) processed

namespace Calls
open Foundations Foundations.Transition
variable {n m : ℕ} {ψ : Type}

/-- The blocks of a request: its record and the copy of its path. -/
def Entry.blocks (e : Entry ψ) : List Addr := e.req::e.path.toList

/-- The record as it is filled in. -/
def Entry.record (e : Entry ψ) : AioRequest ψ := e.call.record e.path

/-- What the call asks for, and the callback. -/
def Entry.kind (e : Entry ψ) : Operate × Option ψ := (e.record.type,e.record.finish)

/-! ### The memory -/

section Placed
variable (K : ℕ → Entry ψ)

/-- The address of a request; `K` tells for each request which call it is from and where its blocks are. -/
def address (r : ℕ) : Addr := (K r).req

/-- The record of a request with the addresses in it. -/
def recordOf (r : ℕ) (q : Request ψ) : AioRequest ψ :=
  { (K r).record with result := q.result, error := q.error, next := q.next.map (address K) }

/-- The requests are where `K` says, their blocks are apart, and nothing else is in memory. -/
structure Placed (mem : Mem (Block ψ)) (reqs : Mem (Request ψ)) : Prop where
  complete : ∀ r, reqs r ≠ none → (K r).Complete
  record : ∀ r q, reqs r = some q → mem (K r).req = some (.request (recordOf K r q)) ∧ (K r).kind =
    (q.type,q.finish)
  path : ∀ r, reqs r ≠ none → ∀ p, (K r).path = some p → ∃ bytes, (K r).call.path = some bytes ∧
    mem p = some (.path bytes)
  apart : ∀ r r' b, reqs r ≠ none → reqs r' ≠ none → b ∈ (K r).blocks → b ∈ (K r').blocks → r = r'
  covers : ∀ b, mem b ≠ none → ∃ r, reqs r ≠ none ∧ b ∈ (K r).blocks

variable {K}

lemma Entry.req_mem (e : Entry ψ) : e.req ∈ e.blocks := List.mem_cons_self

lemma Entry.path_mem {e : Entry ψ} {p : Addr} (h : e.path = some p) : p ∈ e.blocks :=
  List.mem_cons_of_mem _ (by simp [h])

lemma Entry.mem_blocks {e : Entry ψ} {b : Addr} : b ∈ e.blocks ↔ b = e.req ∨ e.path = some b := by
  simp [Entry.blocks]

/-- A new request has no results yet. -/
lemma recordOf_new (r : ℕ) : recordOf K r ⟨(K r).record.type,0,0,(K r).record.finish,none⟩ = (K r).record := by
  unfold recordOf Entry.record
  cases (K r).call <;> rfl

lemma recordOf_path (r : ℕ) (q : Request ψ) : (recordOf K r q).path = (K r).path := by
  unfold recordOf Entry.record
  cases (K r).call <;> rfl

lemma placed_empty (K : ℕ → Entry ψ) : Placed K (fun _ => none) (fun _ => none) where
  complete _ hr := (hr rfl).elim
  record _ _ hr := nomatch hr
  path _ hr := (hr rfl).elim
  apart _ _ _ hr := (hr rfl).elim
  covers _ hb := (hb rfl).elim

section Facts
variable {mem : Mem (Block ψ)} {reqs : Mem (Request ψ)} (h : Placed K mem reqs)
include h

lemma Placed.req_ne {r r' : ℕ} (hr : reqs r ≠ none) (hr' : reqs r' ≠ none) (hne : r' ≠ r) :
    (K r').req ≠ (K r).req :=
  fun he => hne (h.apart r' r (K r').req hr' hr (K r').req_mem (he ▸ (K r).req_mem))

/-- A path is not a request. -/
lemma Placed.path_ne {r r' : ℕ} {p : Addr} (hr : reqs r ≠ none) (hr' : reqs r' ≠ none)
    (hp : (K r').path = some p) :
    p ≠ (K r).req := by
  obtain ⟨q,hq⟩ := Option.ne_none_iff_exists'.mp hr
  obtain ⟨bytes,_,hbytes⟩ := h.path r' hr' p hp
  rintro rfl
  cases hbytes.symm.trans (h.record r q hq).1

/-- The path of a request in memory is still the one that was given. -/
lemma Placed.stringAt {r : ℕ} (hr : reqs r ≠ none) (hcopies : (K r).call.copies = true) :
    stringAt mem (K r).path = (K r).call.path := by
  obtain ⟨p,hp⟩ := Option.isSome_iff_exists.mp ((h.complete r hr).1.trans hcopies)
  obtain ⟨bytes,hpath,hbytes⟩ := h.path r hr p hp
  simp [Calls.stringAt,hp,hpath,hbytes]

/-- A change of a request in its fields `result`, `error` and `next`. -/
theorem Placed.put {r : ℕ} {q q' : Request ψ} (hr : reqs r = some q)
    (hkind : (q'.type,q'.finish) = (q.type,q.finish)) :
    Placed K (mem.put (K r).req (.request (recordOf K r q'))) (reqs.put r q') := by
  have hlive : reqs r ≠ none := by simp [hr]
  have hsame : ∀ b, reqs.put r q' b ≠ none ↔ reqs b ≠ none := by
    intro b
    by_cases hb : b = r
    · simp [hb,hr]
    · simp [hb]
  constructor
  · exact fun b hb => h.complete b ((hsame b).mp hb)
  · intro b x hx
    by_cases hb : b = r
    · subst hb
      obtain rfl : q' = x := by simpa using hx
      exact ⟨Mem.put_same ..,(h.record b q hr).2.trans hkind.symm⟩
    · rw [Mem.put_of_ne hb] at hx
      rw [Mem.put_of_ne (h.req_ne hlive (by simp [hx]) hb)]
      exact h.record b x hx
  · intro b hb p hp
    obtain ⟨bytes,hpath,hbytes⟩ := h.path b ((hsame b).mp hb) p hp
    refine ⟨bytes,hpath,?_⟩
    rw [Mem.put_of_ne (h.path_ne hlive ((hsame b).mp hb) hp)]
    exact hbytes
  · exact fun b b' a hb hb' => h.apart b b' a ((hsame b).mp hb) ((hsame b').mp hb')
  · intro b hb
    by_cases hbr : b = (K r).req
    · exact ⟨r,(hsame r).mpr hlive,hbr ▸ (K r).req_mem⟩
    · rw [Mem.put_of_ne hbr] at hb
      obtain ⟨r',hr',hmem⟩ := h.covers b hb
      exact ⟨r',(hsame r').mpr hr',hmem⟩

/-- A new request. -/
theorem Placed.place {r : ℕ} (hr : reqs r = none) (hfits : (K r).Fits mem) :
    Placed K ((K r).place mem) (reqs.put r ⟨(K r).record.type,0,0,(K r).record.finish,none⟩) := by
  have hnew : ∀ b ∈ (K r).blocks, mem b = none := by
    intro b hb
    rcases Entry.mem_blocks.mp hb with rfl | hp
    · exact hfits.req
    · exact (hfits.path b hp).1
  have hold : ∀ b, b ∉ (K r).blocks → (K r).place mem b = mem b := by
    intro b hb
    rw [Entry.mem_blocks,not_or] at hb
    rw [Entry.place,Mem.put_of_ne hb.1]
    cases hp : (K r).path with
    | none => rfl
    | some p => exact Mem.put_of_ne (fun he => hb.2 (hp.trans (congrArg some he.symm))) _ _
  -- A block of an older request is in memory, so it is none of the new ones.
  have hapart : ∀ r', reqs r' ≠ none → ∀ b ∈ (K r').blocks, b ∉ (K r).blocks := by
    intro r' hr' b hb hbr
    have hnone := hnew b hbr
    obtain ⟨q,hq⟩ := Option.ne_none_iff_exists'.mp hr'
    rcases Entry.mem_blocks.mp hb with rfl | hp
    · cases hnone.symm.trans (h.record r' q hq).1
    · obtain ⟨bytes,_,hbytes⟩ := h.path r' hr' b hp
      cases hnone.symm.trans hbytes
  have hlive : ∀ {x b}, reqs.put r x b ≠ none → b ≠ r → reqs b ≠ none := by
    intro x b hb hbr
    rwa [Mem.put_of_ne hbr] at hb
  constructor
  · intro b hb
    by_cases hbr : b = r
    · exact hbr ▸ hfits.complete
    · exact h.complete b (hlive hb hbr)
  · intro b x hx
    by_cases hb : b = r
    · subst hb
      obtain rfl := Option.some.inj ((Mem.put_same ..).symm.trans hx)
      rw [recordOf_new]
      exact ⟨Mem.put_same ..,rfl⟩
    · rw [Mem.put_of_ne hb] at hx
      rw [hold _ (hapart b (by simp [hx]) _ (K b).req_mem)]
      exact h.record b x hx
  · intro b hb p hp
    by_cases hbr : b = r
    · subst hbr
      obtain ⟨bytes,hbytes⟩ := Option.isSome_iff_exists.mp
        (hfits.complete.2.trans (hfits.complete.1.symm.trans (by simp [hp])))
      refine ⟨bytes,hbytes,?_⟩
      rw [Entry.place,Mem.put_of_ne (hfits.path p hp).2]
      simp [hp,hbytes]
    · have hb' := hlive hb hbr
      rw [hold p (hapart b hb' p (Entry.path_mem hp))]
      exact h.path b hb' p hp
  · intro b b' a hb hb' ha ha'
    by_cases hbr : b = r
    · by_cases hbr' : b' = r
      · rw [hbr,hbr']
      · exact (hapart b' (hlive hb' hbr') a ha' (hbr ▸ ha)).elim
    · by_cases hbr' : b' = r
      · exact (hapart b (hlive hb hbr) a ha (hbr' ▸ ha')).elim
      · exact h.apart b b' a (hlive hb hbr) (hlive hb' hbr') ha ha'
  · intro b hb
    by_cases hbr : b ∈ (K r).blocks
    · exact ⟨r,by simp,hbr⟩
    · rw [hold b hbr] at hb
      obtain ⟨r',hr',hmem⟩ := h.covers b hb
      have hne : r' ≠ r := fun he => hr' (he ▸ hr)
      exact ⟨r',by rwa [Mem.put_of_ne hne],hmem⟩

/-- The memory after `jk_aio_destory`. -/
def Entry.release (e : Entry ψ) (mem : Mem (Block ψ)) : Mem (Block ψ) :=
  let mem := match e.path with
    | none => mem
    | some p => mem.free p
  mem.free e.req

/-- A request is released with its path. -/
theorem Placed.release {r : ℕ} (hr : reqs r ≠ none) : Placed K ((K r).release mem) (reqs.free r) := by
  have hgone : ∀ b, (K r).release mem b ≠ none → b ∉ (K r).blocks := by
    intro b hb hbr
    apply hb
    by_cases hreq : b = (K r).req
    · simp [Entry.release,hreq]
    · have hp := (Entry.mem_blocks.mp hbr).resolve_left hreq
      simp [Entry.release,hreq,hp]
  have hold : ∀ b, b ∉ (K r).blocks → (K r).release mem b = mem b := by
    intro b hb
    rw [Entry.mem_blocks,not_or] at hb
    rw [Entry.release,Mem.free_of_ne hb.1]
    cases hp : (K r).path with
    | none => rfl
    | some p => exact Mem.free_of_ne (fun he => hb.2 (hp.trans (congrArg some he.symm))) _
  have hlive : ∀ {b}, reqs.free r b ≠ none → b ≠ r ∧ reqs b ≠ none := by
    intro b hb
    have hbr : b ≠ r := fun he => hb (he ▸ Mem.free_same ..)
    rw [Mem.free_of_ne hbr] at hb
    exact ⟨hbr,hb⟩
  have hkept : ∀ b, reqs.free r b ≠ none → ∀ a ∈ (K b).blocks, a ∉ (K r).blocks := by
    intro b hb a ha har
    exact (hlive hb).1 (h.apart b r a (hlive hb).2 hr ha har)
  constructor
  · exact fun b hb => h.complete b (hlive hb).2
  · intro b x hx
    have hb : reqs.free r b ≠ none := by simp [hx]
    rw [Mem.free_of_ne (hlive hb).1] at hx
    rw [hold _ (hkept b hb _ (K b).req_mem)]
    exact h.record b x hx
  · intro b hb p hp
    rw [hold p (hkept b hb p (Entry.path_mem hp))]
    exact h.path b (hlive hb).2 p hp
  · exact fun b b' a hb hb' => h.apart b b' a (hlive hb).2 (hlive hb').2
  · intro b hb
    have hbr := hgone b hb
    rw [hold b hbr] at hb
    obtain ⟨r',hr',hmem⟩ := h.covers b hb
    have hne : r' ≠ r := by
      rintro rfl
      exact hbr hmem
    exact ⟨r',by rwa [Mem.free_of_ne hne],hmem⟩

end Facts
end Placed

/-! ### The simulation -/

/-- The two systems are in the same state, but for the names of the requests. -/
structure Named (K : ℕ → Entry ψ) (c : Machine n m ψ) (a : Aio.State n m ψ) (l : Ledger ψ) : Prop where
  pool : c.pool = a.pool.map (address K)
  rhead : c.rhead = a.rhead.map (address K)
  rtail : c.rtail = a.rtail.map (address K)
  nreqs : c.nreqs = a.nreqs
  ncoms : c.ncoms = a.ncoms
  pipe : c.pipe = a.pipe
  capacity : c.capacity = a.capacity
  counts : c.counts = a.counts
  submitting : c.submitting = a.submitting.map (address K)
  refused : c.refused = a.refused.map (address K)
  threads : ∀ j, c.threads j = (a.threads j).map (address K)
  fault : c.fault = false
  placed : Placed K c.mem a.reqs
  fresh : ∀ r, a.reqs r ≠ none → r < a.fresh ∧ 0 < address K r ∧ address K r < 2^64
  gone : ∀ r ∈ a.destroyed, a.reqs r = none
  asked : c.asked = (List.range a.fresh).map K
  kinds : l.asked = c.asked.map Entry.kind
  made : List.Forall₂ (fun g p => (K g.1).call.systemCall = some p.1 ∧ g.2 = p.2) l.given c.made
  returned : c.returned = l.returned.map fun p => recordOf K p.1 p.2
  leaked : ∃ lost : List ℕ, (List.range a.fresh : Multiset ℕ) = a.counted+lost ∧
    c.leaked = lost.map fun r => (address K r,(K r).path)

/-- The event that a machine has made is none or one of the other system. -/
def Follows (K : ℕ → Entry ψ) (c : Machine n m ψ) (a : Aio.State n m ψ) (l : Ledger ψ) : Prop :=
  ∃ es a' l', run observedStep (a,l) es = some (a',l') ∧ Named K c a' l'

theorem init_named (K : ℕ → Entry ψ) (n m : ℕ) (capacity : ℕ) :
    Named K (Machine.init n m ψ capacity) (Aio.aioInit n m ψ capacity) ⟨[],[],[]⟩ where
  pool := rfl
  rhead := rfl
  rtail := rfl
  nreqs := rfl
  ncoms := rfl
  pipe := rfl
  capacity := rfl
  counts := rfl
  submitting := rfl
  refused := rfl
  threads _ := rfl
  fault := rfl
  placed := placed_empty K
  fresh _ hr := (hr rfl).elim
  gone _ _ := rfl
  asked := rfl
  kinds := rfl
  made := .nil
  returned := rfl
  leaked := ⟨[],rfl,rfl⟩

lemma map_erase {α β : Type} [DecidableEq α] [DecidableEq β] {f : α → β} {xs : List α} {x : α}
    (h : ∀ y ∈ xs, f y = f x → y = x) : (xs.map f).erase (f x) = (xs.erase x).map f := by
  induction xs with
  | nil => rfl
  | cons y ys ih =>
    obtain ⟨hy,hys⟩ := List.forall_mem_cons.mp h
    by_cases hyx : y = x
    · simp [hyx]
    · rw [List.map_cons,List.erase_cons_tail (by simpa using fun he => hyx (hy he)),
        List.erase_cons_tail (by simpa using hyx),ih hys,List.map_cons]

section Steps
variable {K : ℕ → Entry ψ} {c c' : Machine n m ψ} {a : Aio.State n m ψ} {l : Ledger ψ} {list : List ℕ}

lemma follows_one {a' : Aio.State n m ψ} {e : Aio.Event n m ψ} (hstep : Aio.step a e = some a')
    (h : Named K c a' (l.record a e)) : Follows K c a l := by
  refine ⟨[e],a',l.record a e,?_,h⟩
  simp [run,observedStep,hstep]

lemma Named.setThread (h : Named K c a l) (j : Fin m) (t : Thread) :
    Named K (c.setThread j (t.map (address K))) (a.setThread j t) l := by
  refine { h with threads := fun k => ?_ }
  by_cases hk : k = j
  · subst hk
    simp [Machine.setThread,State.setThread]
  · simp [Machine.setThread,State.setThread,hk,h.threads]

/-- A request that is not pushed yet, or whose push was refused, is in memory and not appended. -/
lemma live_submitting (hs : Sound a list) {r : ℕ} (hr : r ∈ a.submitting ∨ r ∈ a.refused) :
    a.reqs r ≠ none ∧ r ∈ a.counted := by
  have hmem : r ∈ (a.submitting : Multiset ℕ)+a.refused := by simpa using hr
  have hcounted : r ∈ a.counted := by
    rw [← Multiset.mem_coe,hs.counted,add_assoc]
    exact Multiset.mem_add.mpr (Or.inl hmem)
  have hapart : r ∉ a.appended := by
    have hn := Multiset.coe_nodup.mpr hs.nodup
    rw [hs.counted,add_assoc] at hn
    obtain ⟨_,_,hd⟩ := Multiset.nodup_add.mp hn
    exact fun happ => Multiset.disjoint_left.mp hd hmem (Multiset.mem_add.mpr (Or.inr happ))
  exact ⟨hs.allocated r (hs.fresh r hcounted) fun hd =>
    hapart (hs.dequeued_appended (hs.destroyed_dequeued hd)),hcounted⟩

/-- Two requests in memory have different addresses. -/
lemma Named.address_inj (h : Named K c a l) {r r' : ℕ} (hr : a.reqs r ≠ none) (hr' : a.reqs r' ≠ none)
    (he : address K r' = address K r) : r' = r := by
  by_contra hne
  exact h.placed.req_ne hr hr' hne he

lemma Named.erase (h : Named K c a l) {rs : List ℕ} {r : ℕ} (hlive : ∀ r' ∈ rs, a.reqs r' ≠ none)
    (hr : r ∈ rs) : (rs.map (address K)).erase (address K r) = (rs.erase r).map (address K) :=
  map_erase fun r' hr' he => h.address_inj (hlive r hr) (hlive r' hr') he

/-! Submission. -/

/-- The requests in memory have different addresses, so there are fewer than 2⁶⁴. -/
lemma Named.room (h : Named K c a l) (hs : Sound a list) {e : Entry ψ} (hfits : e.Fits c.mem)
    (hreq : 0 < e.req ∧ e.req < 2^64) : a.counted.length-a.dequeued.length+1 < 2^64 := by
  have hle : (a.dequeued : Multiset ℕ) ≤ a.counted := hs.callbacks_le.2.trans hs.underway_le
  have hnew : ∀ r, a.reqs r ≠ none → address K r ≠ e.req := by
    intro r hr he
    obtain ⟨q,hq⟩ := Option.ne_none_iff_exists'.mp hr
    have hrec := (h.placed.record r q hq).1
    change c.mem (address K r) = _ at hrec
    rw [he,hfits.req] at hrec
    cases hrec
  let pending := (a.counted.toFinset \ a.dequeued.toFinset)
  have hlive : ∀ r ∈ pending, a.reqs r ≠ none := by
    intro r hr
    obtain ⟨hc,hd⟩ := Finset.mem_sdiff.mp hr
    exact hs.allocated r (hs.fresh r (List.mem_toFinset.mp hc)) fun hdes =>
      hd (List.mem_toFinset.mpr (hs.destroyed_dequeued hdes))
  have hsub : a.dequeued.toFinset ⊆ a.counted.toFinset := by
    intro r hr
    rw [List.mem_toFinset] at hr ⊢
    exact Multiset.mem_coe.mp (Multiset.mem_of_le hle hr)
  have hcard : pending.card = a.counted.length-a.dequeued.length := by
    rw [Finset.card_sdiff_of_subset hsub,List.toFinset_card_of_nodup hs.nodup,
      List.toFinset_card_of_nodup hs.dequeued_nodup]
  have hmaps : insert e.req (pending.image (address K)) ⊆ Finset.Ioo 0 (2^64) := by
    intro b hb
    rw [Finset.mem_Ioo]
    rcases Finset.mem_insert.mp hb with rfl | hb
    · exact hreq
    · obtain ⟨r,hr,rfl⟩ := Finset.mem_image.mp hb
      exact (h.fresh r (hlive r hr)).2
  have hout : e.req ∉ pending.image (address K) := by
    intro hmem
    obtain ⟨r,hr,he⟩ := Finset.mem_image.mp hmem
    exact hnew r (hlive r hr) he
  have hinj : (pending.image (address K)).card = pending.card :=
    Finset.card_image_of_injOn fun r hr r' hr' he => (h.address_inj (hlive r hr) (hlive r' hr') he.symm).symm
  have hbound := Finset.card_le_card hmaps
  rw [Finset.card_insert_of_notMem hout,hinj,hcard,Nat.card_Ioo] at hbound
  omega

theorem Named.count (h : Named K c a l) (hs : Sound a list) (hfits : (K a.fresh).Fits c.mem)
    (hreq : 0 < address K a.fresh ∧ address K a.fresh < 2^64) :
    Follows K (Machine.count { c with mem := (K a.fresh).place c.mem } (K a.fresh)) a l := by
  have hnone : a.reqs a.fresh = none := by
    by_contra hr
    exact (h.fresh _ hr).1.false
  have hstep : Aio.step a (.submit (K a.fresh).record.type (K a.fresh).record.finish) =
      some (Aio.aioRequest a (K a.fresh).record.type (K a.fresh).record.finish) := if_pos (h.room hs hfits hreq)
  refine follows_one hstep ?_
  have hlive : ∀ {x r}, a.reqs.put a.fresh x r ≠ none → r = a.fresh ∨ a.reqs r ≠ none := by
    intro x r hr
    by_cases hf : r = a.fresh
    · exact Or.inl hf
    · rw [Mem.put_of_ne hf] at hr
      exact Or.inr hr
  refine { h with
    nreqs := ?_, submitting := ?_, placed := h.placed.place hnone hfits, fresh := ?_, gone := ?_, asked := ?_,
    kinds := ?_, leaked := ?_ }
  · exact congrArg (·+1) h.nreqs
  · simp [Machine.count,Aio.aioRequest,h.submitting,address]
  · intro r hr
    rcases hlive hr with rfl | hr
    · exact ⟨Nat.lt_succ_self _,hreq⟩
    · exact ⟨(h.fresh r hr).1.trans (Nat.lt_succ_self _),(h.fresh r hr).2⟩
  · intro r hr
    have hne : r ≠ a.fresh := by
      have hcounted := hs.mem_counted (Or.inr (hs.dequeued_appended (hs.destroyed_dequeued hr)))
      exact (hs.fresh r hcounted).ne
    exact (Mem.put_of_ne hne _ _).trans (h.gone r hr)
  · change c.asked++[K a.fresh] = (List.range (a.fresh+1)).map K
    rw [h.asked,List.range_succ,List.map_append]
    rfl
  · change l.asked++[_] = (c.asked++[K a.fresh]).map Entry.kind
    rw [h.kinds,List.map_append]
    rfl
  · obtain ⟨lost,hlost,hleaked⟩ := h.leaked
    refine ⟨lost,?_,hleaked⟩
    change (List.range (a.fresh+1) : Multiset ℕ) = (a.counted++[a.fresh] : List ℕ)+lost
    rw [List.range_succ,← Multiset.coe_add,hlost,← Multiset.coe_add]
    abel

theorem Named.push (h : Named K c a l) (hs : Sound a list) {req : Addr} (malloc : Bool) (woken : List (Fin n))
    (hreq : req ∈ c.submitting) : Follows K (c.aioPush req malloc woken) a l := by
  rw [h.submitting] at hreq
  obtain ⟨r,hr,rfl⟩ := List.mem_map.mp hreq
  have hstep : Aio.step a (.push r malloc woken) = some (Aio.aioPush a r malloc woken) := if_pos hr
  refine follows_one hstep ?_
  have herase := h.erase (fun r' hr' => (live_submitting hs (Or.inl hr')).1) hr
  have hpush := Pool.threadPoolPush_map (address K) a.pool Fn.execute r (some .fininsh) malloc woken
  rw [← h.pool] at hpush
  refine { h with pool := ?_, submitting := ?_, refused := ?_ }
  · simp [Machine.aioPush,Aio.aioPush,hpush]
  · simp [Machine.aioPush,Aio.aioPush,h.submitting,herase]
  · simp only [Machine.aioPush,Aio.aioPush,hpush,h.refused]
    split_ifs <;> rfl

theorem Named.rollback (h : Named K c a l) (hs : Sound a list) {req : Addr} (hreq : req ∈ c.refused) :
    Follows K (c.aioRollback req) a l := by
  rw [h.refused] at hreq
  obtain ⟨r,hr,rfl⟩ := List.mem_map.mp hreq
  have hstep : Aio.step a (.rollback r) = some (Aio.aioRollback a r) := if_pos hr
  refine follows_one hstep ?_
  obtain ⟨hlive,hcounted⟩ := live_submitting hs (Or.inr hr)
  have herase := h.erase (fun r' hr' => (live_submitting hs (Or.inr hr')).1) hr
  obtain ⟨q,hq⟩ := Option.ne_none_iff_exists'.mp hlive
  have hrec : c.mem (address K r) = some (.request (recordOf K r q)) := (h.placed.record r q hq).1
  refine { h with nreqs := ?_, refused := ?_, leaked := ?_ }
  · exact congrArg (·-1) h.nreqs
  · simp [Machine.aioRollback,Aio.aioRollback,h.refused,herase]
  · obtain ⟨lost,hlost,hleaked⟩ := h.leaked
    refine ⟨lost++[r],?_,?_⟩
    · change (List.range a.fresh : Multiset ℕ) = (a.counted.erase r : List ℕ)+(lost++[r] : List ℕ)
      rw [hlost,coe_erase hcounted,← Multiset.coe_add,Multiset.coe_singleton]
      abel
    · simp [Machine.aioRollback,hrec,recordOf_path,hleaked]

/-! Workers. -/

lemma Named.poolStep (h : Named K c a l) {e : Pool.Event n Fn ℕ} {pool : Pool.State n Fn Addr}
    (hp : Pool.step c.pool (e.map (address K)) = some pool) :
    ∃ pool', Pool.step a.pool e = some pool' ∧ pool = pool'.map (address K) := by
  rw [h.pool,Pool.step_map] at hp
  obtain ⟨pool',hp',rfl⟩ := Option.map_eq_some_iff.mp hp
  exact ⟨pool',hp',rfl⟩

lemma Named.pc (h : Named K c a l) (i : Fin n) :
    (c.pool.workers i).pc = (a.pool.workers i).pc.map (Pool.Task.map (address K)) := by
  rw [h.pool]
  rfl

/-- A worker that is woken, takes a task or frees one. -/
theorem Named.quiet (h : Named K c a l) (e : Aio.Event n m ψ) (e' : Pool.Event n Fn ℕ)
    (hstep : c.workerStep (e'.map (address K)) none 0 0 = some c') (he : Aio.step a e = Aio.workerStep a e' none 0 0)
    (hl : l.record a e = l) : Follows K c' a l := by
  obtain ⟨pool,hp,hc⟩ := Option.bind_eq_some_iff.mp hstep
  obtain rfl := Option.some.inj hc
  obtain ⟨pool',hp',rfl⟩ := h.poolStep hp
  have ha : Aio.step a e = some { a with pool := pool' } := by
    rw [he,Aio.workerStep,hp']
    rfl
  refine follows_one ha ?_
  rw [hl]
  exact { h with pool := rfl }

/-- An assignment to a request in memory. -/
lemma Named.assign (h : Named K c a l) {r : ℕ} {q p : Request ψ} (hq : a.reqs r = some q)
    {f : AioRequest ψ → AioRequest ψ} (hf : f (recordOf K r q) = recordOf K r p)
    (hkind : (p.type,p.finish) = (q.type,q.finish)) :
    c.assign (address K r) f = some { c with mem := c.mem.put (address K r) (.request (recordOf K r p)) } ∧
      Named K { c with mem := c.mem.put (address K r) (.request (recordOf K r p)) }
        { a with reqs := a.reqs.put r p } l := by
  have hrec : c.mem (address K r) = some (.request (recordOf K r q)) := (h.placed.record r q hq).1
  have hsame : ∀ b, a.reqs.put r p b ≠ none ↔ a.reqs b ≠ none := by
    intro b
    by_cases hb : b = r
    · simp [hb,hq]
    · simp [hb]
  constructor
  · simp [Machine.assign,Calls.assign,hrec,hf]
  · refine { h with placed := h.placed.put hq hkind, fresh := fun b hb => h.fresh b ((hsame b).mp hb), gone := ?_ }
    intro b hb
    by_contra hlive
    exact (hsame b).mp hlive (h.gone b hb)

/-- `jk_aio_execute` finds the request of its task and the path, and makes the system call that was asked for. -/
theorem Named.execute (h : Named K c a l) (hs : Sound a list) {i : Fin n} {result error : ℤ} {t : Pool.Task Fn ℕ}
    (hpc : (a.pool.workers i).pc = .holding t)
    (hstep : c.workerStep (.call i) (some (t.call,address K t.arg)) result error = some c') : Follows K c' a l := by
  obtain ⟨pool,hp,hc⟩ := Option.bind_eq_some_iff.mp hstep
  obtain rfl := Option.some.inj hc
  obtain ⟨pool',hp',rfl⟩ := h.poolStep (e := .call i) hp
  have ht : t ∈ a.pool.load := Pool.mem_load (Or.inl hpc)
  have hlive := hs.live_load (Multiset.mem_map_of_mem Pool.Task.arg ht)
  obtain ⟨q,hq⟩ := Option.ne_none_iff_exists'.mp hlive
  have hrec : c.mem (address K t.arg) = some (.request (recordOf K t.arg q)) := (h.placed.record t.arg q hq).1
  obtain ⟨call,hcall⟩ := Option.isSome_iff_exists.mp (Call.systemCall_isSome (h.placed.complete t.arg hlive).2)
  have hmade : (recordOf K t.arg q).systemCall c.mem = some call :=
    (Call.record_systemCall (h.placed.stringAt hlive) _ _ _).trans hcall
  have ha : Aio.step a (.call i result error) = some { a with
      pool := pool', reqs := a.reqs.put t.arg { q with result := result, error := error },
      executed := a.executed++[t.arg] } := by
    simp [Aio.step,hpc,Aio.workerStep,hp',(hs.tasks t ht).1,Fn.invoke,Aio.aioExecute,Mem.modify_eq hq,State.orFault]
  refine follows_one ha ?_
  have hl : l.record a (.call i result error) = { l with given := l.given++[(t.arg,result,error)] } := by
    simp [Ledger.record,hpc]
  have hpool : Named K { c with pool := pool'.map (address K) } { a with pool := pool' } l := { h with pool := rfl }
  obtain ⟨hassign,hnamed⟩ := hpool.assign hq (f := fun q => { q with result := result, error := error })
    (p := { q with result := result, error := error }) rfl rfl
  rw [hl]
  simp only [Machine.invoke,(hs.tasks t ht).1,Machine.aioExecute,hrec,hmade,hassign,Machine.orFault,
    Option.bind_eq_bind,Option.bind_some,Option.pure_def,Option.getD_some]
  exact { hnamed with made := List.rel_append h.made (.cons ⟨hcall,rfl⟩ .nil) }

/-- `jk_aio_fininsh` finds its request and the last one. -/
theorem Named.fininsh (h : Named K c a l) (hs : Sound a list) {i : Fin n} {t : Pool.Task Fn ℕ}
    (hpc : (a.pool.workers i).pc = .called t)
    (hstep : c.workerStep (.finish i) (some (.fininsh,address K t.arg)) 0 0 = some c') : Follows K c' a l := by
  obtain ⟨pool,hp,hc⟩ := Option.bind_eq_some_iff.mp hstep
  obtain rfl := Option.some.inj hc
  obtain ⟨pool',hp',rfl⟩ := h.poolStep (e := .finish i) hp
  have hlive := hs.live_load (Multiset.mem_map_of_mem Pool.Task.arg (Pool.mem_load (Or.inr hpc)))
  obtain ⟨q,hq⟩ := Option.ne_none_iff_exists'.mp hlive
  have hpool : Named K { c with pool := pool'.map (address K) } { a with pool := pool' } l := { h with pool := rfl }
  obtain ⟨hassign,hfirst⟩ :=
    hpool.assign hq (f := fun q => { q with next := none }) (p := { q with next := none }) rfl rfl
  have hhead : (if c.rhead = none then some (address K t.arg) else c.rhead) =
      (if a.rhead = none then some t.arg else a.rhead).map (address K) := by
    rw [h.rhead]
    cases a.rhead <;> rfl
  have hpipe : (if c.pipe < c.capacity then c.pipe+1 else c.pipe) = if a.pipe < a.capacity then a.pipe+1
      else a.pipe := by
    rw [h.pipe,h.capacity]
  have hstep' : Aio.step a (.finish i) =
      some (State.orFault { a with pool := pool' } (Aio.aioFininsh { a with pool := pool' } t.arg)) := by
    simp [Aio.step,hpc,Aio.workerStep,hp',hs.called hpc,Fn.invoke]
  have hl : l.record a (.finish i) = l := rfl
  cases ht : a.rtail with
  | none =>
    have htail : c.rtail = none := by rw [h.rtail,ht]; rfl
    have ha : Aio.aioFininsh { a with pool := pool' } t.arg = some { a with
        pool := pool', reqs := a.reqs.put t.arg { q with next := none },
        rhead := if a.rhead = none then some t.arg else a.rhead, rtail := some t.arg,
        pipe := if a.pipe < a.capacity then a.pipe+1 else a.pipe, appended := a.appended++[t.arg] } := by
      simp [Aio.aioFininsh,Mem.modify_eq hq,ht]
    have hc : Machine.aioFininsh { c with pool := pool'.map (address K) } (address K t.arg) = some { c with
        pool := pool'.map (address K),
        mem := c.mem.put (address K t.arg) (.request (recordOf K t.arg { q with next := none })),
        rhead := if c.rhead = none then some (address K t.arg) else c.rhead, rtail := some (address K t.arg),
        pipe := if c.pipe < c.capacity then c.pipe+1 else c.pipe } := by
      rw [Machine.aioFininsh,hassign]
      simp [htail]
    rw [ha] at hstep'
    refine follows_one hstep' ?_
    rw [hl,Machine.invoke,hc]
    exact { hfirst with rhead := hhead, rtail := rfl, pipe := hpipe }
  | some r =>
    have htail : c.rtail = some (address K r) := by rw [h.rtail,ht]; rfl
    have hrlive : a.reqs r ≠ none := hs.live_list (List.mem_of_getLast? (hs.queue.tail.symm.trans ht))
    obtain ⟨p,hp⟩ : ∃ p, a.reqs.put t.arg { q with next := none } r = some p := by
      by_cases hr : r = t.arg
      · rw [hr]
        exact ⟨_,Mem.put_same ..⟩
      · rw [Mem.put_of_ne hr]
        exact Option.ne_none_iff_exists'.mp hrlive
    have ha : Aio.aioFininsh { a with pool := pool' } t.arg = some { a with
        pool := pool', reqs := (a.reqs.put t.arg { q with next := none }).put r { p with next := some t.arg },
        rhead := if a.rhead = none then some t.arg else a.rhead, rtail := some t.arg,
        pipe := if a.pipe < a.capacity then a.pipe+1 else a.pipe, appended := a.appended++[t.arg] } := by
      simp [Aio.aioFininsh,Mem.modify_eq hq,ht,Mem.modify_eq hp]
    have hset : Named K { c with
          pool := pool'.map (address K), rhead := if c.rhead = none then some (address K t.arg) else c.rhead,
          rtail := some (address K r),
          mem := c.mem.put (address K t.arg) (.request (recordOf K t.arg { q with next := none })) }
        { a with
          pool := pool', reqs := a.reqs.put t.arg { q with next := none },
          rhead := if a.rhead = none then some t.arg else a.rhead } l :=
      { hfirst with rhead := hhead, rtail := by rw [ht]; rfl }
    obtain ⟨hassign',hnamed⟩ := hset.assign hp (f := fun q => { q with next := some (address K t.arg) })
      (p := { p with next := some t.arg }) rfl rfl
    have hc : Machine.aioFininsh { c with pool := pool'.map (address K) } (address K t.arg) = some { c with
        pool := pool'.map (address K),
        mem := (c.mem.put (address K t.arg) (.request (recordOf K t.arg { q with next := none }))).put (address K r)
          (.request (recordOf K r { p with next := some t.arg })),
        rhead := if c.rhead = none then some (address K t.arg) else c.rhead, rtail := some (address K t.arg),
        pipe := if c.pipe < c.capacity then c.pipe+1 else c.pipe } := by
      rw [Machine.aioFininsh,hassign]
      simp [htail,hassign']
    rw [ha] at hstep'
    refine follows_one hstep' ?_
    rw [hl,Machine.invoke,hc]
    exact { hnamed with rtail := rfl, pipe := hpipe }

/-! Polling. -/

theorem Named.pollSection (h : Named K c a l) (hs : Sound a list) {j : Fin m} {processed : ℕ}
    (hj : a.threads j = .polling processed) : Follows K (c.orFault (c.aioPollSection j processed)) a l := by
  have hstep : Aio.step a (.dequeue j) = some (a.orFault (Aio.aioPollSection a j processed)) := by simp [Aio.step,hj]
  refine follows_one hstep ?_
  have hl : l.record a (.dequeue j) = l := rfl
  rw [hl]
  cases hr : a.rhead with
  | none =>
    have hhead : c.rhead = none := by rw [h.rhead,hr]; rfl
    rw [Machine.aioPollSection,hhead,Aio.aioPollSection,hr]
    exact h.setThread j .idle
  | some r =>
    have hhead : c.rhead = some (address K r) := by rw [h.rhead,hr]; rfl
    have hmem : r ∈ list := List.mem_of_head? (hs.queue.chain.head.symm.trans hr)
    obtain ⟨q,hq⟩ := Option.ne_none_iff_exists'.mp (hs.live_list hmem)
    have hrec : c.mem (address K r) = some (.request (recordOf K r q)) := (h.placed.record r q hq).1
    rw [Machine.aioPollSection,hhead,Aio.aioPollSection,hr]
    simp only [hrec,hq,Machine.orFault,State.orFault,Option.bind_eq_bind,Option.bind_some,Option.pure_def,
      Option.getD_some]
    refine { h.setThread j (.finishing r processed) with
      rhead := rfl, rtail := ?_, ncoms := congrArg (·+1) h.ncoms }
    change (if q.next.map (address K) = none then none else c.rtail) =
      (if q.next = none then none else a.rtail).map (address K)
    rw [h.rtail]
    cases q.next <;> rfl

/-- The callback is called with the request that the other system has recorded. -/
theorem Named.callback (h : Named K c a l) (hs : Sound a list) {j : Fin m} {r processed : ℕ}
    (hj : a.threads j = .finishing r processed) :
    Follows K (c.orFault (c.aioCallback j (address K r) processed)) a l := by
  have hstep : Aio.step a (.callback j) = some (a.orFault (Aio.aioCallback a j r processed)) := by simp [Aio.step,hj]
  refine follows_one hstep ?_
  obtain ⟨q,hq⟩ := Option.ne_none_iff_exists'.mp (hs.live_held (j := j) (r := r) (by simp [hj,Thread.holds])).1
  obtain ⟨hrec,hkind⟩ := h.placed.record r q hq
  change c.mem (address K r) = _ at hrec
  have hfinish : (recordOf K r q).finish = q.finish := congrArg Prod.snd hkind
  rw [Machine.aioCallback,hrec,Aio.aioCallback]
  simp only [hq,hfinish,Machine.orFault,State.orFault,Ledger.record,hj,
    Option.bind_eq_bind,Option.bind_some,Option.pure_def,Option.getD_some]
  by_cases hf : q.finish.isSome = true
  · simp only [if_pos hf]
    refine { h.setThread j (.destroying r processed) with returned := ?_ }
    change c.returned++[_] = (l.returned++[(r,q)]).map fun p => recordOf K p.1 p.2
    rw [h.returned,List.map_append]
    rfl
  · simp only [if_neg hf]
    exact { h.setThread j (.destroying r processed) with }

theorem Named.destory (h : Named K c a l) (hs : Sound a list) {j : Fin m} {r processed : ℕ}
    (hj : a.threads j = .destroying r processed) :
    Follows K (c.orFault (c.aioDestory j (address K r) processed)) a l := by
  have hstep : Aio.step a (.destory j) = some (a.orFault (Aio.aioDestory a j r processed)) := by simp [Aio.step,hj]
  refine follows_one hstep ?_
  have hlive := (hs.live_held (j := j) (r := r) (by simp [hj,Thread.holds])).1
  obtain ⟨q,hq⟩ := Option.ne_none_iff_exists'.mp hlive
  have hrec : c.mem (address K r) = some (.request (recordOf K r q)) := (h.placed.record r q hq).1
  have hdone : c.aioDestory j (address K r) processed =
      some { c.setThread j (.polling (processed+1)) with mem := (K r).release c.mem } := by
    rw [Machine.aioDestory,hrec]
    simp only [recordOf_path,Entry.release]
    cases hp : (K r).path with
    | none => rfl
    | some p =>
      obtain ⟨bytes,_,hbytes⟩ := h.placed.path r hlive p hp
      simp only [hbytes]
      rfl
  have hl : l.record a (.destory j) = l := rfl
  have hkept : ∀ b, a.reqs.free r b ≠ none → b ≠ r ∧ a.reqs b ≠ none := by
    intro b hb
    have hbr : b ≠ r := fun he => hb (he ▸ Mem.free_same ..)
    rw [Mem.free_of_ne hbr] at hb
    exact ⟨hbr,hb⟩
  rw [hl,hdone,Aio.aioDestory]
  simp only [hq,Machine.orFault,State.orFault,Option.bind_eq_bind,Option.bind_some,Option.pure_def,Option.getD_some]
  refine { h.setThread j (.polling (processed+1)) with
    placed := h.placed.release hlive, fresh := fun b hb => h.fresh b (hkept b hb).2, gone := ?_ }
  intro b hb
  by_contra hkeep
  obtain ⟨hne,hold⟩ := hkept b hkeep
  rcases List.mem_append.mp hb with hb | hb
  · exact hold (h.gone b hb)
  · exact hne (List.mem_singleton.mp hb)

/-! All events. -/

/-- One event of the machine; `K` is right about the call that it may begin. -/
theorem Named.step (h : Named K c a l) (hs : Sound a list) {e : Machine.Event n m ψ}
    (hK : ∀ r x, c'.asked[r]? = some x → K r = x) (hstep : c.step e = some c') : Follows K c' a l := by
  cases e with
  | enter call alloc =>
    obtain ⟨hreal,hcall⟩ := Option.ite_none_right_eq_some.mp hstep
    obtain ⟨⟨t,r⟩,hprep,hrest⟩ := Option.bind_eq_some_iff.mp hcall
    rcases Call.prepare_cases hprep with ⟨rfl,rfl⟩ | ⟨req,rfl,halloc,hfits,rfl⟩
    · obtain rfl := Option.some.inj hrest
      exact ⟨[],a,l,rfl,h⟩
    · obtain rfl := Option.some.inj hrest
      have hentry : K a.fresh = call.entry alloc req := by
        apply hK
        simp [Machine.count,h.asked]
      have hreq : 0 < req ∧ req < 2^64 := by simpa [halloc] using hreal
      rw [← hentry] at hfits ⊢
      exact h.count hs hfits (by rw [address,hentry]; exact hreq)
  | push req malloc woken =>
    obtain ⟨hreq,hc⟩ := Option.ite_none_right_eq_some.mp hstep
    exact Option.some.inj hc ▸ h.push hs malloc woken hreq
  | rollback req =>
    obtain ⟨hreq,hc⟩ := Option.ite_none_right_eq_some.mp hstep
    exact Option.some.inj hc ▸ h.rollback hs hreq
  | wake i => exact h.quiet (.wake i) (.wake i) hstep rfl rfl
  | lock i => exact h.quiet (.lock i) (.lock i) hstep rfl rfl
  | free i => exact h.quiet (.free i) (.free i) hstep rfl rfl
  | call i result error =>
    simp only [Machine.step,h.pc i] at hstep
    cases hpc : (a.pool.workers i).pc with
    | holding t =>
      rw [hpc] at hstep
      exact h.execute hs hpc hstep
    | _ => simp [hpc,Pool.Pc.map] at hstep
  | finish i =>
    simp only [Machine.step,h.pc i] at hstep
    cases hpc : (a.pool.workers i).pc with
    | called t =>
      rw [hpc] at hstep
      have hcalled := hs.called hpc
      have hfinish : (t.map (address K)).finish = some .fininsh := hcalled
      simp only [Pool.Pc.map,hfinish,Option.map_some] at hstep
      exact h.fininsh hs hpc hstep
    | _ => simp [hpc,Pool.Pc.map] at hstep
  | select j ret =>
    simp only [Machine.step,h.threads j,h.pipe] at hstep
    cases hj : a.threads j with
    | idle =>
      simp only [hj,Thread.map] at hstep
      split_ifs at hstep with hret hpipe
      · have ha : Aio.step a (.select j ret) = some a := by simp [Aio.step,hj,hret]
        exact Option.some.inj hstep ▸ follows_one ha h
      · have ha : Aio.step a (.select j ret) = some (a.setThread j (.reading 0)) := by simp [Aio.step,hj,hret,hpipe]
        exact Option.some.inj hstep ▸ follows_one ha (h.setThread j (.reading 0))
    | _ => simp [hj,Thread.map] at hstep
  | read j =>
    simp only [Machine.step,h.threads j,h.pipe] at hstep
    cases hj : a.threads j with
    | reading count =>
      simp only [hj,Thread.map] at hstep
      split_ifs at hstep with hpipe
      · have ha : Aio.step a (.read j) = some { a.setThread j (.reading (count+1)) with pipe := a.pipe-1 } := by
          simp [Aio.step,hj,hpipe]
        exact Option.some.inj hstep ▸ follows_one ha { h.setThread j (.reading (count+1)) with pipe := rfl }
      · have ha : Aio.step a (.read j) = some { a.setThread j .idle with counts := a.counts++[count] } := by
          simp [Aio.step,hj,hpipe]
        have hcounts : c.counts++[count] = a.counts++[count] := by rw [h.counts]
        exact Option.some.inj hstep ▸ follows_one ha { h.setThread j .idle with counts := hcounts }
    | _ => simp [hj,Thread.map] at hstep
  | poll j =>
    simp only [Machine.step,h.threads j] at hstep
    cases hj : a.threads j with
    | idle =>
      have ha : Aio.step a (.poll j) = some (a.setThread j (.polling 0)) := by simp [Aio.step,hj]
      simp only [hj,Thread.map] at hstep
      exact Option.some.inj hstep ▸ follows_one ha (h.setThread j (.polling 0))
    | _ => simp [hj,Thread.map] at hstep
  | dequeue j =>
    simp only [Machine.step,h.threads j] at hstep
    cases hj : a.threads j with
    | polling processed =>
      simp only [hj,Thread.map] at hstep
      exact Option.some.inj hstep ▸ h.pollSection hs hj
    | _ => simp [hj,Thread.map] at hstep
  | callback j =>
    simp only [Machine.step,h.threads j] at hstep
    cases hj : a.threads j with
    | finishing r processed =>
      simp only [hj,Thread.map] at hstep
      exact Option.some.inj hstep ▸ h.callback hs hj
    | _ => simp [hj,Thread.map] at hstep
  | destory j =>
    simp only [Machine.step,h.threads j] at hstep
    cases hj : a.threads j with
    | destroying r processed =>
      simp only [hj,Thread.map] at hstep
      exact Option.some.inj hstep ▸ h.destory hs hj
    | _ => simp [hj,Thread.map] at hstep

end Steps

/-! ### Runs -/

section Runs
variable {c c' : Machine n m ψ}

lemma Machine.assign_asked {req : Addr} {f : AioRequest ψ → AioRequest ψ} (h : c.assign req f = some c') :
    c'.asked = c.asked := by
  obtain ⟨t,_,hc⟩ := Option.bind_eq_some_iff.mp h
  exact Option.some.inj hc ▸ rfl

lemma Machine.invoke_asked {f : Fn} {req : Addr} {result error : ℤ} (h : c.invoke f req result error = some c') :
    c'.asked = c.asked := by
  cases f with
  | execute =>
    simp only [Machine.invoke,Machine.aioExecute] at h
    split at h
    · obtain ⟨call,_,h⟩ := Option.bind_eq_some_iff.mp h
      obtain ⟨c₁,hassign,h⟩ := Option.bind_eq_some_iff.mp h
      have hsame := Machine.assign_asked hassign
      exact Option.some.inj h ▸ hsame
    · cases h
  | fininsh =>
    obtain ⟨c₁,hassign,h⟩ := Option.bind_eq_some_iff.mp h
    have hfirst := Machine.assign_asked hassign
    dsimp only at h
    split at h
    · exact Option.some.inj h ▸ hfirst
    · obtain ⟨c₂,htail,h⟩ := Option.bind_eq_some_iff.mp h
      have hlast := (Machine.assign_asked htail).trans hfirst
      exact Option.some.inj h ▸ hlast

lemma Machine.workerStep_asked {e : Pool.Event n Fn Addr} {call : Option (Fn × Addr)} {result error : ℤ}
    (h : c.workerStep e call result error = some c') : c'.asked = c.asked := by
  obtain ⟨pool,_,h⟩ := Option.bind_eq_some_iff.mp h
  cases call with
  | none => exact Option.some.inj h ▸ rfl
  | some p =>
    rw [← Option.some.inj h]
    simp only [Machine.orFault]
    cases hinvoke : Machine.invoke { c with pool := pool } p.1 p.2 result error with
    | none => rfl
    | some c₁ =>
      have hsame := Machine.invoke_asked hinvoke
      exact hsame

/-- The calls that have come to `jk_aio_submit` stay recorded. -/
theorem Machine.step_asked {e : Machine.Event n m ψ} (h : c.step e = some c') : c.asked <+: c'.asked := by
  have hsame (he : c'.asked = c.asked) : c.asked <+: c'.asked := he ▸ List.prefix_rfl
  cases e with
  | enter call alloc =>
    obtain ⟨_,h⟩ := Option.ite_none_right_eq_some.mp h
    obtain ⟨⟨t,r⟩,_,h⟩ := Option.bind_eq_some_iff.mp h
    cases r with
    | none => exact Option.some.inj h ▸ List.prefix_rfl
    | some req => exact Option.some.inj h ▸ List.prefix_append _ _
  | push req malloc woken | rollback req =>
    obtain ⟨_,h⟩ := Option.ite_none_right_eq_some.mp h
    exact Option.some.inj h ▸ List.prefix_rfl
  | wake i =>
    have hworker : c.workerStep (.wake i) none 0 0 = some c' := h
    exact hsame (Machine.workerStep_asked hworker)
  | lock i =>
    have hworker : c.workerStep (.lock i) none 0 0 = some c' := h
    exact hsame (Machine.workerStep_asked hworker)
  | free i =>
    have hworker : c.workerStep (.free i) none 0 0 = some c' := h
    exact hsame (Machine.workerStep_asked hworker)
  | call i result error | finish i =>
    simp only [Machine.step] at h
    split at h
    · exact hsame (Machine.workerStep_asked h)
    · cases h
  | select j ret | read j =>
    simp only [Machine.step] at h
    split at h
    · split_ifs at h <;> exact Option.some.inj h ▸ List.prefix_rfl
    · cases h
  | poll j =>
    simp only [Machine.step] at h
    split at h
    · exact Option.some.inj h ▸ List.prefix_rfl
    · cases h
  | dequeue j =>
    simp only [Machine.step] at h
    split at h
    · rw [← Option.some.inj h]
      unfold Machine.aioPollSection
      split
      · exact List.prefix_rfl
      · split <;> exact List.prefix_rfl
    · cases h
  | callback j =>
    simp only [Machine.step] at h
    split at h
    · rw [← Option.some.inj h]
      unfold Machine.aioCallback
      split <;> exact List.prefix_rfl
    · cases h
  | destory j =>
    simp only [Machine.step] at h
    split at h
    · rw [← Option.some.inj h]
      unfold Machine.aioDestory
      split
      · rename_i q hq
        cases q.path with
        | none => exact List.prefix_rfl
        | some p => cases hp : c.mem p <;> simp [hp,Machine.orFault,Machine.setThread]
      · exact List.prefix_rfl
    · cases h

/-- The calls of a run by their numbers. -/
def Machine.entry (c : Machine n m ψ) (r : ℕ) : Entry ψ := (c.asked[r]?).getD ⟨.close 0 none,0,none⟩

/-- The two systems side by side, with what is known about the one that numbers its requests. -/
def Paired (K : ℕ → Entry ψ) (c : Machine n m ψ) (p : Aio.State n m ψ × Ledger ψ) : Prop :=
  Named K c p.1 p.2 ∧ (∃ list, Sound p.1 list) ∧ Recorded p.1 p.2

/-- Every run with addresses is a run with numbers. -/
theorem run_paired {capacity : ℕ} {es : List (Machine.Event n m ψ)}
    (hrun : run Machine.step (Machine.init n m ψ capacity) es = some c) : ∃ es' p,
      run observedStep (Aio.aioInit n m ψ capacity,⟨[],[],[]⟩) es' = some p ∧ Paired c.entry c p := by
  have hstart : Paired c.entry (Machine.init n m ψ capacity) (Aio.aioInit n m ψ capacity,⟨[],[],[]⟩) :=
    ⟨init_named c.entry n m capacity,⟨[],aioInit_sound n m ψ capacity⟩,aioInit_recorded n m ψ capacity⟩
  refine run_simulates (F := fun s => ∀ r x, s.asked[r]? = some x → c.entry r = x) ?_ ?_ hstart hrun ?_
  · intro s e s' hstep hF r x hx
    apply hF r x
    obtain ⟨later,hlater⟩ := Machine.step_asked hstep
    rw [← hlater,List.getElem?_append_left (List.getElem?_eq_some_iff.mp hx).1]
    exact hx
  · rintro s e s' ⟨a,l⟩ ⟨hnamed,⟨list,hs⟩,hrec⟩ hF hstep
    obtain ⟨ds,a',l',hrun',hnamed'⟩ := hnamed.step hs hF hstep
    refine ⟨ds,(a',l'),hrun',hnamed',?_⟩
    apply run_invariant (P := fun p : Aio.State n m ψ × Ledger ψ => (∃ list, Sound p.1 list) ∧
      Recorded p.1 p.2) _
      ⟨⟨list,hs⟩,hrec⟩ hrun'
    rintro ⟨b,k⟩ e p ⟨⟨list,hs⟩,h⟩ hstep'
    obtain ⟨b',hb',rfl⟩ := Option.map_eq_some_iff.mp hstep'
    exact ⟨hs.step hb',h.step hs hb'⟩
  · intro r x hx
    simp [Machine.entry,hx]

end Runs

end Calls
end JustKit.Aio
