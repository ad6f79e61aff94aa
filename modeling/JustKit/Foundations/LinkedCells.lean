import JustKit.Foundations.Memory

/-! Singly linked lists of cells with an item in each, and tables of such lists. The memory is seen through the
function that reads a cell. -/
namespace Foundations.LinkedCells
variable {β : Type*}

/-- The item of a cell and the pointer to the next one. -/
structure Cell (β : Type*) where
  item : β
  next : Option ℕ
  deriving Repr, DecidableEq

variable {cell cell' : ℕ → Option (Cell β)} {p q r : Option ℕ} {a : ℕ} {x : β} {xs ys : List (ℕ × β)}

/-- From `p` the cells `xs`, with their items, lead to `q`. -/
def Path (cell : ℕ → Option (Cell β)) (p : Option ℕ) : List (ℕ × β) → Option ℕ → Prop
  | [],q => p = q
  | (a,x)::xs,q => p = some a ∧ ∃ r, cell a = some ⟨x,r⟩ ∧ Path cell r xs q

theorem path_append : Path cell p (xs++ys) q ↔ ∃ r, Path cell p xs r ∧ Path cell r ys q := by
  induction xs generalizing p with
  | nil => simp [Path]
  | cons c xs ih =>
    simp only [List.cons_append,Path,ih]
    constructor
    · rintro ⟨hp,s,hs,r,hxs,hys⟩
      exact ⟨r,⟨hp,s,hs,hxs⟩,hys⟩
    · rintro ⟨r,⟨hp,s,hs,hxs⟩,hys⟩
      exact ⟨hp,s,hs,r,hxs,hys⟩

/-- A path depends on its own cells only. -/
theorem Path.congr (h : Path cell p xs q)
    (heq : ∀ a ∈ xs.map Prod.fst, cell' a = cell a) : Path cell' p xs q := by
  induction xs generalizing p with
  | nil => exact h
  | cons c xs ih =>
    obtain ⟨hp,r,hr,hrest⟩ := h
    exact ⟨hp,r,(heq c.1 List.mem_cons_self).trans hr,ih hrest fun a ha => heq a (List.mem_cons_of_mem _ ha)⟩

theorem Path.allocated (h : Path cell p xs q) (ha : a ∈ xs.map Prod.fst) : cell a ≠ none := by
  induction xs generalizing p with
  | nil => cases ha
  | cons c xs ih =>
    obtain ⟨_,r,hr,hrest⟩ := h
    rcases List.mem_cons.mp ha with rfl | ha
    · rw [hr]
      exact Option.some_ne_none _
    · exact ih hrest ha

/-- The last cell of a path has the pointer to its end. -/
theorem Path.last (h : Path cell p xs q) {c : ℕ × β} (hc : c ∈ xs.getLast?) : cell c.1 = some ⟨c.2,q⟩ := by
  obtain ⟨zs,rfl⟩ := List.getLast?_eq_some_iff.mp hc
  obtain ⟨_,_,_,r,hr,rfl⟩ := path_append.mp h
  exact hr

/-- The path with its end moved from `r` to `q`, when that pointer is the head or the link of the last cell. -/
theorem Path.redirect (h : Path cell p xs r) (hn : (xs.map Prod.fst).Nodup) (hhead : xs = [] → p = q)
    (hlast : ∀ c ∈ xs.getLast?, cell' c.1 = some ⟨c.2,q⟩)
    (hrest : ∀ a ∈ xs.map Prod.fst, (∀ c ∈ xs.getLast?, a ≠ c.1) → cell' a = cell a) :
    Path cell' p xs q := by
  induction xs generalizing p with
  | nil => exact hhead rfl
  | cons c xs ih =>
    obtain ⟨hp,s,hs,htail⟩ := h
    obtain ⟨hc,hn⟩ := List.nodup_cons.mp hn
    cases xs with
    | nil => exact ⟨hp,q,hlast c rfl,rfl⟩
    | cons d xs =>
      rw [List.getLast?_cons_cons] at hlast hrest
      have hne : ∀ e ∈ (d::xs).getLast?, c.1 ≠ e.1 := fun e he heq =>
        hc (heq ▸ List.mem_map_of_mem (List.mem_of_getLast? he))
      refine ⟨hp,s,(hrest c.1 List.mem_cons_self hne).trans hs,ih htail hn (fun hd => nomatch hd) hlast ?_⟩
      exact fun a ha => hrest a (List.mem_cons_of_mem _ ha)

/-! ### Tables of lists -/

/-- The cells of a table of lists, each with its head. -/
def cells (l : List (Option ℕ × List (ℕ × β))) : List ℕ := l.flatMap fun c => c.2.map Prod.fst

variable {l l' : List (Option ℕ × List (ℕ × β))}

@[simp] theorem cells_nil : cells ([] : List (Option ℕ × List (ℕ × β))) = [] := rfl
@[simp] theorem cells_cons (c : Option ℕ × List (ℕ × β)) : cells (c::l) = c.2.map Prod.fst++cells l := rfl
@[simp] theorem cells_append : cells (l++l') = cells l++cells l' := List.flatMap_append

theorem cells_perm (h : l.Perm l') : (cells l).Perm (cells l') := h.flatMap_right _

theorem mem_cells {c : Option ℕ × List (ℕ × β)} (hc : c ∈ l)
    (ha : a ∈ c.2.map Prod.fst) : a ∈ cells l :=
  List.mem_flatMap.mpr ⟨c,hc,ha⟩

/-- All lists end, and no cell is in two of them or twice in one. -/
structure Stored (cell : ℕ → Option (Cell β)) (l : List (Option ℕ × List (ℕ × β))) : Prop where
  paths : ∀ c ∈ l, Path cell c.1 c.2 none
  nodup : (cells l).Nodup

theorem Stored.perm (h : Stored cell l) (hp : l.Perm l') : Stored cell l' :=
  ⟨fun c hc => h.paths c (hp.mem_iff.mpr hc),(cells_perm hp).nodup_iff.mp h.nodup⟩

theorem Stored.congr (h : Stored cell l) (heq : ∀ a ∈ cells l, cell' a = cell a) : Stored cell' l :=
  ⟨fun c hc => (h.paths c hc).congr fun a ha => heq a (mem_cells hc ha),h.nodup⟩

theorem Stored.allocated (h : Stored cell l) (ha : a ∈ cells l) : cell a ≠ none := by
  obtain ⟨c,hc,ha⟩ := List.mem_flatMap.mp ha
  exact (h.paths c hc).allocated ha

theorem Stored.tail {c : Option ℕ × List (ℕ × β)} (h : Stored cell (c::l)) : Stored cell l :=
  ⟨fun d hd => h.paths d (List.mem_cons_of_mem c hd),(List.nodup_append.mp h.nodup).2.1⟩

theorem Stored.cons (h : Stored cell l) (hp : Path cell p xs none) (hn : (xs.map Prod.fst).Nodup)
    (hd : ∀ a ∈ xs.map Prod.fst, a ∉ cells l) : Stored cell ((p,xs)::l) := by
  refine ⟨List.forall_mem_cons.mpr ⟨hp,h.paths⟩,List.nodup_append.mpr ⟨hn,h.nodup,?_⟩⟩
  exact fun a ha b hb hab => hd a ha (hab ▸ hb)

/-- The cells of one list are apart from those of the others. -/
theorem Stored.apart {c : Option ℕ × List (ℕ × β)} (h : Stored cell (c::l)) : (c.2.map Prod.fst).Nodup ∧
    ∀ a ∈ c.2.map Prod.fst, a ∉ cells l := by
  obtain ⟨hn,_,hd⟩ := List.nodup_append.mp h.nodup
  exact ⟨hn,fun a ha hb => hd a ha a hb rfl⟩

/-- The first cell of one list is put in front of another. -/
theorem Stored.move {e : ℕ} (h : Stored cell ((some e,(e,x)::xs)::(p,ys)::l)) : ∃ q, cell e = some ⟨x,q⟩ ∧
    ∀ cell', cell' e = some ⟨x,p⟩ → (∀ a, a ≠ e → cell' a = cell a) →
      Stored cell' ((q,xs)::(some e,(e,x)::ys)::l) := by
  obtain ⟨⟨_,q,hq,hxs⟩,hpaths⟩ := List.forall_mem_cons.mp h.paths
  obtain ⟨hys,hl⟩ := List.forall_mem_cons.mp hpaths
  obtain ⟨hnx,hdx⟩ := h.apart
  obtain ⟨hny,hdy⟩ := h.tail.apart
  obtain ⟨hex,hnx⟩ := List.nodup_cons.mp hnx
  obtain ⟨hey,hel⟩ := List.forall_mem_cons.mp hdx
  rw [cells_cons,List.mem_append,not_or] at hey
  refine ⟨q,hq,fun cell' he hrest => ?_⟩
  have hkeep : Stored cell' l := h.tail.tail.congr fun a ha => hrest a fun hae => hey.2 (hae ▸ ha)
  have hfront : Path cell' (some e) ((e,x)::ys) none :=
    ⟨rfl,p,he,hys.congr fun a ha => hrest a fun hae => hey.1 (hae ▸ ha)⟩
  refine (hkeep.cons hfront (List.nodup_cons.mpr ⟨hey.1,hny⟩) (List.forall_mem_cons.mpr ⟨hey.2,hdy⟩)).cons
    (hxs.congr fun a ha => hrest a fun hae => hex (hae ▸ ha)) hnx fun a ha => ?_
  have hax := hel a ha
  rw [cells_cons,List.mem_append,not_or] at hax ⊢
  exact ⟨fun hc => (List.mem_cons.mp hc).elim (fun hae => hex (hae ▸ ha)) hax.1,hax.2⟩

/-- The first cell of one list is released. -/
theorem Stored.drop {e : ℕ} (h : Stored cell ((some e,(e,x)::xs)::l)) : ∃ q, cell e = some ⟨x,q⟩ ∧
    ∀ cell', (∀ a, a ≠ e → cell' a = cell a) → Stored cell' ((q,xs)::l) := by
  obtain ⟨⟨_,q,hq,hxs⟩,hl⟩ := List.forall_mem_cons.mp h.paths
  obtain ⟨he,hn⟩ := List.nodup_cons.mp h.nodup
  refine ⟨q,hq,fun cell' hrest => Stored.congr ⟨List.forall_mem_cons.mpr ⟨hxs,hl⟩,hn⟩ fun a ha => ?_⟩
  exact hrest a fun hae => he (hae ▸ ha)

/-- The list at one place of the table is replaced. -/
theorem Stored.set {i : ℕ} {c : Option ℕ × List (ℕ × β)} (h : Stored cell l) (hc : l[i]? = some c)
    (heq : ∀ a ∈ cells (l.eraseIdx i), cell' a = cell a) (hp : Path cell' p xs none)
    (hn : (xs.map Prod.fst).Nodup) (hd : ∀ a ∈ xs.map Prod.fst, a ∉ cells (l.eraseIdx i)) :
    Stored cell' (l.set i (p,xs)) := by
  obtain ⟨hi,rfl⟩ := List.getElem?_eq_some_iff.mp hc
  have hrest := (h.perm (List.getElem_cons_eraseIdx_perm hi).symm).tail.congr heq
  exact (hrest.cons hp hn hd).perm (List.set_perm_cons_eraseIdx hi (p,xs)).symm

/-- The cells of a table are those of one of its lists and of the others. -/
theorem cells_eraseIdx {i : ℕ} {c : Option ℕ × List (ℕ × β)} (hc : l[i]? = some c) :
    (cells l).Perm (c.2.map Prod.fst++cells (l.eraseIdx i)) := by
  obtain ⟨hi,rfl⟩ := List.getElem?_eq_some_iff.mp hc
  exact cells_perm (List.getElem_cons_eraseIdx_perm hi).symm

theorem cells_set {i : ℕ} {c : Option ℕ × List (ℕ × β)} (hc : l[i]? = some c) (p : Option ℕ)
    (xs : List (ℕ × β)) : (cells (l.set i (p,xs))).Perm (xs.map Prod.fst++cells (l.eraseIdx i)) :=
  cells_perm (List.set_perm_cons_eraseIdx (List.getElem?_eq_some_iff.mp hc).1 (p,xs))

theorem mem_cells_eraseIdx {i : ℕ} {c : Option ℕ × List (ℕ × β)} (hc : l[i]? = some c) :
    a ∈ cells l ↔ a ∈ c.2.map Prod.fst ∨ a ∈ cells (l.eraseIdx i) := by
  rw [(cells_eraseIdx hc).mem_iff,List.mem_append]

theorem mem_cells_set {i : ℕ} {c : Option ℕ × List (ℕ × β)} (hc : l[i]? = some c) :
    a ∈ cells (l.set i (p,xs)) ↔ a ∈ xs.map Prod.fst ∨ a ∈ cells (l.eraseIdx i) := by
  rw [(cells_set hc p xs).mem_iff,List.mem_append]

end Foundations.LinkedCells
