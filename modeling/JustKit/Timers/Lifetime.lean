import JustKit.Timers.Timeouts

/-! Whether a timer lives on after its callback. The callback returns 64 bits, without a sign, and
`jk_timer_process_timeout` decides on the `int` it stores them in. The runs are sessions, in which
callbacks may use the timers. -/
namespace JustKit.Timers
open Foundations Foundations.HTree JustKit.Avl

/-- The timer whose callback has returned `result` is released if this is 0, and otherwise pending. -/
structure LivesAsAsked (T : Timer) (n : TimerNode) (result : UInt64) : Prop where
  released : n ∈ T.released ↔ result = 0
  pending : result ≠ 0 → ∃ k, Pending T n k

/-- The result is 0, or its low 32 bits are a positive `int`. -/
def KeepsInterval (result : UInt64) : Prop :=
  result = 0 ∨ (0 < result.toNat % 2^32 ∧ result.toNat % 2^32 < 2^31)

lemma wrap_pos_iff (r : ℕ) : 0 < wrap 32 r ↔ 0 < r % 2^32 ∧ r % 2^32 < 2^31 := by
  constructor
  · exact wrap_pos
  · rintro ⟨hpos,hlt⟩
    obtain ⟨hge,hle⟩ := wrap_range 31 r
    have hmod : (r : ℤ) % 2^32 = wrap 32 r % 2^32 := (Int.bmod_emod).symm
    simp only [Nat.reduceAdd] at hge hle
    omega

/-! ### Where the timers are during a session -/

/-- The timers in the tree, those whose callbacks are running and those released make up the timers
pushed, and the tree records of the running ones still lead back to them. -/
structure Tracked (S : Session) (t : HTree (Item Addr)) : Prop where
  avl : IsAvl S.timer.tree t
  self : ∀ i ∈ t.toList, i.data = i.addr
  running : ∀ a ∈ S.calls, ∃ k, (S.timer.tree.mem a).map Node.payload = some (k,a)
  once : (pending S.timer t++(S.calls.map S.timer.nodes++S.timer.released.map some)).Perm (S.timer.pushed.map some)
  serials : S.timer.pushed.map TimerNode.serial = List.range S.timer.pushed.length

namespace Tracked
variable {S S' : Session} {t : HTree (Item Addr)}

lemma nodup (h : Tracked S t) : (pending S.timer t++(S.calls.map S.timer.nodes++S.timer.released.map some)).Nodup :=
  nodup_of_once h.once h.serials

lemma pending_allocated (h : Tracked S t) {i : Item Addr} (hi : i ∈ t.toList) :
    ∃ n, S.timer.nodes i.addr = some n :=
  exists_of_once h.once (List.mem_append_left _ (List.mem_map.mpr ⟨i,hi,rfl⟩))

lemma running_allocated (h : Tracked S t) {a : Addr} (ha : a ∈ S.calls) : ∃ n, S.timer.nodes a = some n :=
  exists_of_once h.once (List.mem_append_right _ (List.mem_append_left _ (List.mem_map_of_mem ha)))

/-- A node whose callback is running is not in the tree. -/
lemma running_notMem (h : Tracked S t) {a : Addr} (ha : a ∈ S.calls) : a ∉ addrs t := by
  intro hm
  obtain ⟨i,hi,rfl⟩ := List.mem_map.mp hm
  have hdisj := (List.nodup_append'.mp h.nodup).2.2
  exact hdisj (List.mem_map.mpr ⟨i,hi,rfl⟩) (List.mem_append_left _ (List.mem_map_of_mem ha))

lemma fresh_notMem (h : Tracked S t) {a : Addr} (ha : S.timer.nodes a = none) : a ∉ addrs t ∧ a ∉ S.calls := by
  refine ⟨notMem_addrs ha fun _ hi => h.pending_allocated hi,fun hm => ?_⟩
  obtain ⟨n,hn⟩ := h.running_allocated hm
  cases ha.symm.trans hn

lemma minNode (h : Tracked S t) : timerMinNode S.timer = some (t.toList.head?.map Item.addr) := by
  apply timerMinNode_eq h.avl h.self
  have hlen := h.once.length_eq
  simp only [pending,List.length_append,List.length_map] at hlen
  omega

/-- What keeps the payload of the records of running nodes keeps that they lead back to them. -/
lemma running_of_payload (h : Tracked S t) {calls : List Addr} {s : Store Addr}
    (hsub : ∀ b ∈ calls, b ∈ S.calls)
    (hs : ∀ b ∈ calls, (s.mem b).map Node.payload = (S.timer.tree.mem b).map Node.payload) :
    ∀ b ∈ calls, ∃ k, (s.mem b).map Node.payload = some (k,b) := by
  intro b hb
  obtain ⟨k,hk⟩ := h.running b (hsub b hb)
  exact ⟨k,(hs b hb).trans hk⟩

end Tracked

lemma tracked_init : Tracked sessionInit nil :=
  ⟨⟨⟨rfl,trivial,by simp⟩,valid_nil,List.Pairwise.nil⟩,by simp,by simp [sessionInit],
    by simp [pending,sessionInit,timerInit],rfl⟩

lemma put_payload {s : Store Addr} {a b : Addr} (hne : b ≠ a) (k : Node Addr) :
    ((s.put a k).mem b).map Node.payload = (s.mem b).map Node.payload := by
  simp [Store.put,hne]

theorem Tracked.push {S S' : Session} {t : HTree (Item Addr)} (h : Tracked S t) {timeout now : UInt64}
    {cb data : ℕ} {free alloc : Option ℕ}
    (hs : (Event.push timeout cb free data alloc now).exec S = some S') :
    ∃ t', Tracked S' t' := by
  cases alloc with
  | none =>
    cases hs
    exact ⟨t,h.avl,h.self,h.running,h.once,h.serials⟩
  | some a =>
    simp only [Event.exec] at hs
    split_ifs at hs with hfresh
    obtain ⟨⟨T,r⟩,hT,hS⟩ := Option.map_eq_some_iff.mp hs
    subst hS
    obtain ⟨tree,htree,hT⟩ := Option.bind_eq_some_iff.mp hT
    cases hT
    obtain ⟨hat,hac⟩ := h.fresh_notMem (by simpa using hfresh)
    have hne : ∀ b ∈ S.calls, b ≠ a := fun b hb he => hac (he ▸ hb)
    let n : TimerNode := ⟨cb,free,data,S.timer.pushed.length⟩
    let T' : Timer := { S.timer with tree := tree, nodes := S.timer.nodes.put a n, pushed := S.timer.pushed++[n] }
    have hcalls : S.calls.map T'.nodes = S.calls.map S.timer.nodes :=
      List.map_congr_left fun b hb => Mem.put_of_ne (hne b hb) _ _
    have htree' : pending T' t = pending S.timer t :=
      pending_congr fun b hb => Mem.put_of_ne (fun he : b = a => hat (he ▸ hb)) _ _
    refine ⟨_,h.avl.insert_of_some hat htree,self_insert rfl h.self,?_,?_,?_⟩
    · apply h.running_of_payload fun _ hb => hb
      intro b hb
      exact (avlInsert_payload htree b).trans (put_payload (hne b hb) _)
    · have hpend := pending_insert T' t ⟨a,timeout+now,a⟩
      have hn : T'.nodes a = some n := Mem.put_same _ _ _
      rw [htree',hn] at hpend
      change (pending T' _++(S.calls.map T'.nodes++_)).Perm ((S.timer.pushed++[n]).map some)
      rw [hcalls,List.map_append]
      exact (hpend.append_right _).trans ((h.once.cons _).trans (List.perm_append_singleton _ _).symm)
    · simp [h.serials,List.range_succ]

theorem Tracked.pass {S S' : Session} {t : HTree (Item Addr)} (h : Tracked S t) (hd : KeysDistinct S.timer)
    {current : UInt64} (hs : (Event.pass current).exec S = some S') : ∃ t', Tracked S' t' := by
  obtain ⟨⟨T,r⟩,hT,hs⟩ := Option.bind_eq_some_iff.mp hs
  rw [timerFire,h.minNode] at hT
  cases hl : t.toList with
  | nil =>
    rw [hl] at hT
    cases hT
    cases hs
    exact ⟨t,h.avl,h.self,h.running,h.once,h.serials⟩
  | cons d rest =>
    simp only [hl,List.head?_cons,Option.map_some,Option.bind_eq_bind,Option.bind_some] at hT
    obtain ⟨k,hk,hT⟩ := Option.bind_eq_some_iff.mp hT
    split_ifs at hT with hdue
    · cases hT
      cases hs
      exact ⟨t,h.avl,h.self,h.running,h.once,h.serials⟩
    · obtain ⟨tree,htree,hT⟩ := Option.bind_eq_some_iff.mp hT
      cases hT
      obtain ⟨n,hn,hs⟩ := Option.bind_eq_some_iff.mp hs
      cases hs
      have hdm : d ∈ t.toList := by simp [hl]
      obtain ⟨gs,l,j,r,hloc⟩ := locate_self h.avl.ordered (hd t h.avl.rep) hdm
      obtain ⟨u,hu,hlist⟩ := h.avl.remove_of_some hloc htree
      have hperm : (d::u.toList).Perm t.toList := by
        rw [hlist]
        exact cons_filter_addr_perm h.avl.rep.nodup hdm
      have hpay := avlRemove_payload htree
      refine ⟨u,hu,?_,?_,?_,h.serials⟩
      · intro i hi
        exact h.self i (hperm.mem_iff.mp (List.mem_cons_of_mem _ hi))
      · intro b hb
        rcases List.mem_cons.mp hb with rfl | hb
        · refine ⟨d.key,(hpay _).trans ?_⟩
          have hmem := h.avl.rep.holds.mem_payload hdm
          rwa [h.self d hdm] at hmem
        · exact h.running_of_payload (fun _ hb => hb) (fun c _ => hpay c) b hb
      · -- The node moves from the tree to the running ones.
        have hpend := hperm.map fun i => S.timer.nodes i.addr
        rw [List.map_cons] at hpend
        refine List.Perm.trans ?_ ((hpend.append_right _).trans h.once)
        simp only [List.map_cons]
        exact List.perm_middle

/-! ### The return of a callback -/

section Back
variable {S : Session} {t : HTree (Item Addr)} (h : Tracked S t) {a : Addr} {calls : List Addr} {n : TimerNode}
  (hcalls : S.calls = a::calls) (hn : S.timer.nodes a = some n)
include h hcalls

lemma Tracked.ne_of_calls : ∀ b ∈ calls, b ≠ a := by
  intro b hb he
  have hmid := (List.nodup_append'.mp (List.nodup_append'.mp h.nodup).2.1).1
  rw [hcalls,List.map_cons,List.nodup_cons] at hmid
  exact hmid.1 (he ▸ List.mem_map_of_mem hb)

include hn

/-- The timer goes back into the tree. -/
theorem Tracked.reschedule {k : Node Addr} {key : UInt64} {tree : Store Addr} (hk : S.timer.tree.mem a = some k)
    (htree : avlInsert (S.timer.tree.put a { k with key := key }) a = some tree) (clock : UInt64)
    (log : List Moment) :
    ∃ t', Tracked ⟨{ S.timer with tree := tree },calls,clock,log⟩ t' ∧
      Pending { S.timer with tree := tree } n key := by
  have ha : a ∈ S.calls := by simp [hcalls]
  have hdata : k.data = a := by
    obtain ⟨k',hk'⟩ := h.running a ha
    rw [hk] at hk'
    exact congrArg Prod.snd (Option.some.inj hk')
  have hinsert := h.avl.insert_of_some (h.running_notMem ha) htree
  have hperm := insertNode_perm Item.key ⟨a,key,k.data⟩ t
  refine ⟨_,⟨hinsert,self_insert hdata h.self,?_,?_,h.serials⟩,
    _,_,hinsert.rep,hperm.mem_iff.mpr List.mem_cons_self,rfl,hn⟩
  · apply h.running_of_payload fun b hb => by simp [hcalls,hb]
    intro b hb
    exact (avlInsert_payload htree b).trans (put_payload (h.ne_of_calls hcalls b hb) _)
  · have hpend := pending_insert { S.timer with tree := tree } t ⟨a,key,k.data⟩
    have honce := h.once
    rw [hcalls,List.map_cons] at honce
    refine ((hpend.append_right _).trans ?_).trans honce
    exact List.perm_middle.symm

/-- The timer is released. -/
theorem Tracked.release (freed : List (ℕ × ℕ)) (clock : UInt64) (log : List Moment) :
    Tracked ⟨⟨⟨S.timer.tree.root,S.timer.tree.mem.free a⟩,S.timer.nodes.free a,S.timer.pushed,
      S.timer.released++[n],freed⟩,calls,clock,log⟩ t := by
  have hat := h.running_notMem (show a ∈ S.calls by simp [hcalls])
  have hne := h.ne_of_calls hcalls
  have htn : ∀ b ∈ addrs t, b ≠ a := fun b hb he => hat (he ▸ hb)
  refine ⟨h.avl.congr rfl fun b hb => Mem.free_of_ne (htn b hb) _,h.self,?_,?_,h.serials⟩
  · apply h.running_of_payload fun b hb => by simp [hcalls,hb]
    intro b hb
    exact congrArg (Option.map Node.payload) (Mem.free_of_ne (hne b hb) _)
  · have honce := h.once
    rw [hcalls,List.map_cons,hn] at honce
    have hpc : calls.map (S.timer.nodes.free a) = calls.map S.timer.nodes :=
      List.map_congr_left fun b hb => Mem.free_of_ne (hne b hb) _
    have hpt : pending { S.timer with nodes := S.timer.nodes.free a } t = pending S.timer t :=
      pending_congr fun b hb => Mem.free_of_ne (htn b hb) _
    change (pending { S.timer with nodes := S.timer.nodes.free a } t++
      (calls.map (S.timer.nodes.free a)++(S.timer.released++[n]).map some)).Perm _
    rw [hpt,hpc,List.map_append,← List.append_assoc (calls.map _)]
    exact ((List.perm_append_singleton _ _).append_left _).trans honce

theorem Tracked.back {S' : Session} {result later : UInt64} (hs : (Event.back result later).exec S = some S') :
    ∃ t', Tracked S' t' ∧
      ((0 < wrap 32 result.toNat ∧ S'.timer.released = S.timer.released ∧ ∃ k, Pending S'.timer n k) ∨
        (¬ 0 < wrap 32 result.toNat ∧ S'.timer.released = S.timer.released++[n])) := by
  unfold Event.exec at hs
  rw [hcalls] at hs
  obtain ⟨n',hn',hs⟩ := Option.bind_eq_some_iff.mp hs
  obtain rfl : n = n' := Option.some.inj (hn.symm.trans hn')
  obtain ⟨T,hT,hs⟩ := Option.bind_eq_some_iff.mp hs
  cases hs
  unfold timerReturn at hT
  split_ifs at hT with hret
  · obtain ⟨s,hmod,hT⟩ := Option.bind_eq_some_iff.mp hT
    obtain ⟨tree,htree,hT⟩ := Option.bind_eq_some_iff.mp hT
    cases hT
    obtain ⟨_,hrun⟩ := h.running a (by simp [hcalls])
    obtain ⟨k,hk,_⟩ := Option.map_eq_some_iff.mp hrun
    rw [Store.modify_eq hk] at hmod
    cases hmod
    obtain ⟨t',ht',hpending⟩ := h.reschedule hcalls hn hk htree later _
    exact ⟨t',ht',Or.inl ⟨hret,rfl,_,hpending⟩⟩
  · obtain ⟨n',hn',hT⟩ := Option.bind_eq_some_iff.mp hT
    obtain rfl : n = n' := Option.some.inj (hn.symm.trans hn')
    cases hT
    exact ⟨t,h.release hcalls hn _ later _,Or.inr ⟨hret,rfl⟩⟩

end Back

theorem Tracked.step {S S' : Session} {e : Event} (h : ∃ t, Tracked S t) (hd : KeysDistinct S.timer)
    (hs : step S e = some S') : ∃ t', Tracked S' t' := by
  obtain ⟨t,ht⟩ := h
  unfold Timers.step at hs
  split_ifs at hs
  cases e with
  | push timeout cb free data alloc now => exact ht.push hs
  | pass current => exact ht.pass hd hs
  | back result later =>
    cases hcalls : S.calls with
    | nil =>
      simp only [Event.exec,hcalls] at hs
      cases hs
    | cons a calls =>
      obtain ⟨n,hn⟩ := ht.running_allocated (show a ∈ S.calls by rw [hcalls]; exact List.mem_cons_self)
      obtain ⟨t',ht',_⟩ := ht.back hcalls hn hs
      exact ⟨t',ht'⟩

/-- A timer whose callback is running has not been released. -/
lemma Tracked.notMem_released {S : Session} {t : HTree (Item Addr)} (h : Tracked S t) {a : Addr} (ha : a ∈ S.calls)
    {n : TimerNode} (hn : S.timer.nodes a = some n) : n ∉ S.timer.released := by
  intro hm
  have hdisj := (List.nodup_append'.mp (List.nodup_append'.mp h.nodup).2.1).2.2
  exact hdisj (List.mem_map.mpr ⟨a,ha,hn⟩) (List.mem_map_of_mem hm)

/-- For every callback that returns in any session whose pending deadlines differ at all times: its timer is
released if the result is 0 and otherwise pending, if and only if the result is 0 or positive as an `int`. -/
theorem timer_lives_iff (es : List Event) (S : Session) (hrun : Transition.run step sessionInit es = some S)
    (hd : Transition.Always step (fun S _ => KeysDistinct S.timer) sessionInit es) (a : Addr) (calls : List Addr)
    (n : TimerNode) (hcalls : S.calls = a::calls) (hn : S.timer.nodes a = some n) (result later : UInt64)
    (S' : Session) (hs : step S (.back result later) = some S') :
    LivesAsAsked S'.timer n result ↔ KeepsInterval result := by
  obtain ⟨t,h⟩ := Transition.run_invariant_when (fun _ _ _ h hd hs => Tracked.step h hd hs)
    ⟨nil,tracked_init⟩ hrun hd
  have ha : a ∈ S.calls := by simp [hcalls]
  unfold step at hs
  split_ifs at hs
  obtain ⟨t',_,hcase⟩ := h.back hcalls hn hs
  rcases hcase with ⟨hpos,hreleased,hpending⟩ | ⟨hneg,hreleased⟩
  · have hlow := (wrap_pos_iff result.toNat).mp hpos
    have hne : result ≠ 0 := by
      intro he
      rw [he] at hlow
      exact absurd hlow.1 (by decide)
    refine ⟨fun _ => Or.inr hlow,fun _ => ⟨?_,fun _ => hpending⟩⟩
    rw [hreleased]
    exact iff_of_false (h.notMem_released ha hn) hne
  · have hmem : n ∈ S'.timer.released := by simp [hreleased]
    constructor
    · intro hlives
      exact Or.inl (hlives.released.mp hmem)
    · rintro (hzero | hlow)
      · exact ⟨iff_of_true hmem hzero,fun hne => absurd hzero hne⟩
      · exact absurd ((wrap_pos_iff result.toNat).mpr hlow) hneg

/-- A timer pushed at 0 is called at 5, and its callback pushes another one. -/
def pushingSession : List Event := [.push 5 0 none 0 (some 1) 0,.pass 5,.push 3 0 none 0 (some 2) 5]

lemma pushingSession_distinct :
    Transition.Always step (fun S _ => KeysDistinct S.timer) sessionInit pushingSession := by
  refine Transition.always_cons.mpr ⟨keysDistinct_of_represents (t := nil) ⟨rfl,trivial,by simp⟩ (by simp),
    fun S hS => ?_⟩
  cases hS
  refine Transition.always_cons.mpr ⟨keysDistinct_of_represents (t := node nil ⟨1,5,1⟩ 1 nil)
    ⟨rfl,⟨rfl,trivial,trivial⟩,by decide⟩ (by decide),fun S hS => ?_⟩
  cases hS
  refine Transition.always_cons.mpr ⟨keysDistinct_of_represents (t := nil) ⟨rfl,trivial,by simp⟩ (by simp),
    fun S _ => Transition.always_nil _ S⟩

lemma pushingSession_runs : ∃ S, Transition.run step sessionInit pushingSession = some S ∧ S.calls = [1] ∧
    S.timer.nodes 1 = some ⟨0,none,0,0⟩ := ⟨_,rfl,rfl,rfl⟩

theorem timer_lives_iff_pushing : ∃ S S', Transition.run step sessionInit pushingSession = some S ∧
    step S (.back 3 5) = some S' ∧ (LivesAsAsked S'.timer ⟨0,none,0,0⟩ 3 ↔ KeepsInterval 3) := by
  obtain ⟨S,hrun,hcalls,hn⟩ := pushingSession_runs
  have hsome : ((Transition.run step sessionInit pushingSession).bind fun S => step S (.back 3 5)).isSome := by
    decide +kernel
  rw [hrun,Option.bind_some] at hsome
  obtain ⟨S',hs⟩ := Option.isSome_iff_exists.mp hsome
  exact ⟨S,S',hrun,hs,timer_lives_iff pushingSession S hrun pushingSession_distinct 1 []
    ⟨0,none,0,0⟩ hcalls hn 3 5 S' hs⟩

/-- A callback that asks to be called after 2^32 milliseconds is never called again: its timer is released. -/
theorem long_interval_releases : ∃ S S', Transition.run step sessionInit pushingSession = some S ∧
    Transition.Always step (fun S _ => KeysDistinct S.timer) sessionInit pushingSession ∧ S.calls = [1] ∧
    S.timer.nodes 1 = some ⟨0,none,0,0⟩ ∧ step S (.back 4294967296 5) = some S' ∧
    ¬ LivesAsAsked S'.timer ⟨0,none,0,0⟩ 4294967296 := by
  obtain ⟨S,hrun,hcalls,hn⟩ := pushingSession_runs
  have hreleased : ((Transition.run step sessionInit pushingSession).bind fun S =>
      (step S (.back 4294967296 5)).map fun S' => S'.timer.released) = some [⟨0,none,0,0⟩] := by
    decide +kernel
  rw [hrun,Option.bind_some] at hreleased
  obtain ⟨S',hs,hlist⟩ := Option.map_eq_some_iff.mp hreleased
  refine ⟨S,S',hrun,pushingSession_distinct,hcalls,hn,hs,fun hlives => ?_⟩
  exact absurd (hlives.released.mp (by rw [hlist]; exact List.mem_singleton.mpr rfl)) (by decide)

end JustKit.Timers
