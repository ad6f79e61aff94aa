import JustKit.Foundations.SearchPath
import JustKit.Avl.Model

/-! How a memory of nodes represents a height-labelled tree, and a tree with a hole. -/
namespace JustKit.Avl
open Foundations Foundations.HTree
variable {δ : Type}

/-- What a node keeps for its whole life in a tree: its address, key and data. -/
structure Item (δ : Type) where
  addr : Addr
  key : UInt64
  data : δ
  deriving Repr, DecidableEq

/-- The pointer to the root of a tree. -/
def ptr : HTree (Item δ) → Option Addr
  | nil => none
  | node _ a _ _ => some a.addr

/-- The memory holds every node of the tree. -/
def Holds (m : Mem (Node δ)) : HTree (Item δ) → Prop
  | nil => True
  | node l a h r => m a.addr = some ⟨a.key,a.data,h,ptr l,ptr r⟩ ∧ Holds m l ∧ Holds m r

/-- The memory holds a path and its side trees, with `p` stored in the hole. -/
def HoldsPath (m : Mem (Node δ)) : List (Frame (Item δ)) → Option Addr → Prop
  | [],_ => True
  | .left a h r::fs,p => m a.addr = some ⟨a.key,a.data,h,p,ptr r⟩ ∧ Holds m r ∧ HoldsPath m fs (some a.addr)
  | .right l a h::fs,p => m a.addr = some ⟨a.key,a.data,h,ptr l,p⟩ ∧ Holds m l ∧ HoldsPath m fs (some a.addr)

/-- The pointer to the root of a tree with `p` in its hole. -/
def top : List (Frame (Item δ)) → Option Addr → Option Addr
  | [],p => p
  | .left a _ _::fs,_ => top fs (some a.addr)
  | .right _ a _::fs,_ => top fs (some a.addr)

/-- The cell that is the hole. -/
def place : List (Frame (Item δ)) → Place
  | [] => .root
  | .left a _ _::_ => .left a.addr
  | .right _ a _::_ => .right a.addr

/-- The path stack: the cells from which the nodes of the path hang, innermost first. -/
def stack : List (Frame (Item δ)) → List Place
  | [] => []
  | _::fs => place fs::stack fs

def addrs (t : HTree (Item δ)) : List Addr := t.toList.map Item.addr
def pathAddrs (fs : List (Frame (Item δ))) : List Addr := (before fs ++ after fs).map Item.addr

/-- The store holds exactly the tree `t`, whose nodes have different addresses. -/
structure Represents (s : Store δ) (t : HTree (Item δ)) : Prop where
  root : s.root = ptr t
  holds : Holds s.mem t
  nodup : (addrs t).Nodup

@[simp] theorem ptr_nil : ptr (nil : HTree (Item δ)) = none := rfl
@[simp] theorem ptr_node (l : HTree (Item δ)) (a : Item δ) (h : ℕ) (r : HTree (Item δ)) :
    ptr (node l a h r) = some a.addr := rfl
@[simp] theorem addrs_nil : addrs (nil : HTree (Item δ)) = [] := rfl
@[simp] theorem addrs_node (l : HTree (Item δ)) (a : Item δ) (h : ℕ) (r : HTree (Item δ)) :
    addrs (node l a h r) = addrs l ++ a.addr :: addrs r := by simp [addrs]
@[simp] theorem pathAddrs_nil : pathAddrs ([] : List (Frame (Item δ))) = [] := rfl

lemma ptr_eq_none {t : HTree (Item δ)} : ptr t = none ↔ t = nil := by cases t <;> simp

@[simp] theorem stack_length (fs : List (Frame (Item δ))) : (stack fs).length = fs.length := by
  induction fs with
  | nil => rfl
  | cons f fs ih => simp [stack,ih]

theorem holds_congr {m m' : Mem (Node δ)} {t : HTree (Item δ)} (h : ∀ a ∈ addrs t, m' a = m a)
    (ht : Holds m t) : Holds m' t := by
  induction t with
  | nil => trivial
  | node l a k r hl hr =>
    obtain ⟨ha,htl,htr⟩ := ht
    refine ⟨(h a.addr (by simp)).trans ha,hl (fun b hb => h b ?_) htl,hr (fun b hb => h b ?_) htr⟩
    · simp [hb]
    · simp [hb]

theorem pathAddrs_cons_perm (f : Frame (Item δ)) (fs : List (Frame (Item δ))) :
    (pathAddrs (f::fs)).Perm (f.label.addr::(addrs f.sibling ++ pathAddrs fs)) := by
  cases f with
  | left a h r =>
    simp only [pathAddrs,before_cons,after_cons,Frame.before,Frame.after,List.append_nil,List.map_append,
      List.map_cons,List.cons_append,Frame.label,Frame.sibling,addrs]
    exact List.perm_middle.trans (List.Perm.cons _ (List.perm_append_comm_assoc _ _ _))
  | right l a h =>
    simp only [pathAddrs,before_cons,after_cons,Frame.before,Frame.after,List.nil_append,List.map_append,
      List.map_cons,List.map_nil,List.append_assoc,Frame.label,Frame.sibling,addrs]
    refine (List.perm_append_comm_assoc _ _ _).trans ?_
    rw [← List.append_assoc,← List.append_assoc (l.toList.map _)]
    exact List.perm_middle

theorem holdsPath_congr {m m' : Mem (Node δ)} {fs : List (Frame (Item δ))} {p : Option Addr}
    (h : ∀ a ∈ pathAddrs fs, m' a = m a) (hp : HoldsPath m fs p) : HoldsPath m' fs p := by
  induction fs generalizing p with
  | nil => trivial
  | cons f fs ih =>
    have hmem : ∀ a, a = f.label.addr ∨ a ∈ addrs f.sibling ∨ a ∈ pathAddrs fs → m' a = m a := by
      intro a ha
      exact h a ((pathAddrs_cons_perm f fs).mem_iff.mpr (by simpa using ha))
    cases f with
    | left a k r =>
      obtain ⟨ha,hr,hfs⟩ := hp
      exact ⟨(hmem _ (Or.inl rfl)).trans ha,holds_congr (fun b hb => hmem b (Or.inr (Or.inl hb))) hr,
        ih (fun b hb => hmem b (Or.inr (Or.inr hb))) hfs⟩
    | right l a k =>
      obtain ⟨ha,hl,hfs⟩ := hp
      exact ⟨(hmem _ (Or.inl rfl)).trans ha,holds_congr (fun b hb => hmem b (Or.inr (Or.inl hb))) hl,
        ih (fun b hb => hmem b (Or.inr (Or.inr hb))) hfs⟩

theorem holds_put {m : Mem (Node δ)} {t : HTree (Item δ)} {a : Addr} (h : a ∉ addrs t) (n : Node δ)
    (ht : Holds m t) : Holds (m.put a n) t :=
  holds_congr (fun _ hb => Mem.put_of_ne (fun e => h (by rwa [e] at hb)) _ _) ht

theorem holdsPath_put {m : Mem (Node δ)} {fs : List (Frame (Item δ))} {p : Option Addr} {a : Addr}
    (h : a ∉ pathAddrs fs) (n : Node δ) (hp : HoldsPath m fs p) : HoldsPath (m.put a n) fs p :=
  holdsPath_congr (fun _ hb => Mem.put_of_ne (fun e => h (by rwa [e] at hb)) _ _) hp

theorem holds_plug {m : Mem (Node δ)} (fs : List (Frame (Item δ))) (t : HTree (Item δ)) :
    Holds m (plug fs t) ↔ HoldsPath m fs (ptr t) ∧ Holds m t := by
  induction fs generalizing t with
  | nil => simp [HoldsPath]
  | cons f fs ih =>
    rw [plug_cons,ih]
    cases f with
    | left a h r => simp only [Frame.fill,Holds,HoldsPath,ptr_node]; tauto
    | right l a h => simp only [Frame.fill,Holds,HoldsPath,ptr_node]; tauto

theorem ptr_plug (fs : List (Frame (Item δ))) (t : HTree (Item δ)) : ptr (plug fs t) = top fs (ptr t) := by
  induction fs generalizing t with
  | nil => rfl
  | cons f fs ih => rw [plug_cons,ih]; cases f <;> rfl

theorem addrs_plug_perm (fs : List (Frame (Item δ))) (t : HTree (Item δ)) :
    (addrs (plug fs t)).Perm (pathAddrs fs ++ addrs t) := by
  have hp : (before fs ++ t.toList ++ after fs).Perm (before fs ++ after fs ++ t.toList) := by
    rw [List.append_assoc,List.append_assoc]
    exact List.perm_append_comm.append_left _
  simpa [addrs,pathAddrs,plug_toList] using hp.map Item.addr

theorem nodup_plug (fs : List (Frame (Item δ))) (t : HTree (Item δ)) :
    (addrs (plug fs t)).Nodup ↔
      (pathAddrs fs).Nodup ∧ (addrs t).Nodup ∧ ∀ a ∈ pathAddrs fs, a ∉ addrs t := by
  rw [(addrs_plug_perm fs t).nodup_iff,List.nodup_append]
  constructor
  · rintro ⟨h1,h2,h3⟩; exact ⟨h1,h2,fun a ha hb => h3 a ha a hb rfl⟩
  · rintro ⟨h1,h2,h3⟩; exact ⟨h1,h2,fun a ha b hb he => h3 a ha (he ▸ hb)⟩

theorem nodup_node {l r : HTree (Item δ)} {a : Item δ} {h : ℕ} :
    (addrs (node l a h r)).Nodup ↔ a.addr ∉ addrs l ∧ a.addr ∉ addrs r ∧
      (addrs l).Nodup ∧ (addrs r).Nodup ∧ List.Disjoint (addrs l) (addrs r) := by
  rw [addrs_node,List.nodup_middle,List.nodup_cons,List.nodup_append',List.mem_append]
  tauto

/-! ### Reading and writing the hole -/

theorem load_place {s : Store δ} {fs : List (Frame (Item δ))} {p : Option Addr}
    (hr : s.root = top fs p) (hp : HoldsPath s.mem fs p) : s.load (place fs) = some p := by
  cases fs with
  | nil => simpa [place,Store.load,top] using hr
  | cons f fs =>
    cases f with
    | left a h r => simp [place,Store.load,hp.1]
    | right l a h => simp [place,Store.load,hp.1]

theorem Store.modify_eq {s : Store δ} {a : Addr} {n : Node δ} (h : s.mem a = some n)
    (f : Node δ → Node δ) : s.modify a f = some ⟨s.root,s.mem.put a (f n)⟩ := by
  simp [Store.modify,Mem.modify_eq h]

/-- Storing the root of `t` in the hole gives a store that holds the whole tree around `t`. -/
theorem save_place {s : Store δ} {fs : List (Frame (Item δ))} {p : Option Addr}
    (hr : s.root = top fs p) (hp : HoldsPath s.mem fs p) {t : HTree (Item δ)} (ht : Holds s.mem t)
    (hn : (addrs (plug fs t)).Nodup) :
    ∃ s', s.save (ptr t) (place fs) = some s' ∧ Represents s' (plug fs t) ∧
      ∀ a ∉ pathAddrs fs, s'.mem a = s.mem a := by
  obtain ⟨hpn,htn,hd⟩ := (nodup_plug fs t).mp hn
  cases fs with
  | nil => exact ⟨⟨ptr t,s.mem⟩,rfl,⟨rfl,ht,hn⟩,fun _ _ => rfl⟩
  | cons f fs =>
    have hperm := pathAddrs_cons_perm f fs
    have ha : f.label.addr ∈ pathAddrs (f::fs) := hperm.mem_iff.mpr List.mem_cons_self
    obtain ⟨hna,_⟩ := List.nodup_cons.mp (hperm.nodup_iff.mp hpn)
    simp only [List.mem_append,not_or] at hna
    have hta := hd _ ha
    have hother (n : Node δ) : ∀ b ∉ pathAddrs (f::fs), s.mem.put f.label.addr n b = s.mem b :=
      fun b hb => Mem.put_of_ne (fun e => hb (by rwa [e])) _ _
    cases f with
    | left a h r =>
      obtain ⟨hm,hr',hfs⟩ := hp
      refine ⟨⟨s.root,s.mem.put a.addr ⟨a.key,a.data,h,ptr t,ptr r⟩⟩,?_,⟨?_,?_,hn⟩,hother _⟩
      · exact Store.modify_eq hm _
      · rw [ptr_plug]; exact hr
      · rw [holds_plug]
        exact ⟨⟨by simp,holds_put hna.1 _ hr',holdsPath_put hna.2 _ hfs⟩,holds_put hta _ ht⟩
    | right l a h =>
      obtain ⟨hm,hl',hfs⟩ := hp
      refine ⟨⟨s.root,s.mem.put a.addr ⟨a.key,a.data,h,ptr l,ptr t⟩⟩,?_,⟨?_,?_,hn⟩,hother _⟩
      · exact Store.modify_eq hm _
      · rw [ptr_plug]; exact hr
      · rw [holds_plug]
        exact ⟨⟨by simp,holds_put hna.1 _ hl',holdsPath_put hna.2 _ hfs⟩,holds_put hta _ ht⟩

end JustKit.Avl
