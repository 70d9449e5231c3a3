import Wagtail.Library.Links
import Wagtail.Library.Ranked
import Wagtail.Library.Runs
import Wagtail.Library.Word
import Wagtail.Vfs

/-!
# Which filesystem serves a path

The mountpoints in memory are a list with the longest paths first and the first
root mount last. A search therefore delegates to the longest mount path that the
given path starts with as a string, whether or not it ends at the end of a
component.
-/
namespace WagtailVfs

open WagtailKstring
open Links (Seg)
open Runs (Run Guarded)

variable {φ β : Type} {v v' : Vfs φ} {p : Kstring}

/-- A filesystem that has been mounted, and the address of its mountpoint. -/
structure Mount (φ : Type) where
  address : Nat
  path : Kstring
  fs : φ
  deriving DecidableEq, Repr

variable {m : Mount φ} {l l₁ l₂ : List (Mount φ)}

def Mount.rank (m : Mount φ) : Nat := m.path.length

/-! ## The list in memory -/

/-- The mountpoints in memory are the mounts of `l`, linked in that order. -/
structure Represents (v : Vfs φ) (l : List (Mount φ)) : Prop where
  first : v.mountList = (l.map Mount.address).headD 0
  linked : Seg (fun a => (v.mountpoint a).next) (fun a => (v.mountpoint a).prev) 0
    (l.map Mount.address) 0
  path : ∀ m ∈ l, (v.mountpoint m.address).path = m.path
  fs : ∀ m ∈ l, (v.mountpoint m.address).fs = m.fs
  nodup : (l.map Mount.address).Nodup
  address : ∀ m ∈ l, 0 < m.address ∧ m.address < 2 ^ 32

theorem Represents.length_lt (h : Represents v l) : l.length < maxMountpoints := by
  have hlt := Word.length_lt (n := 2 ^ 32) (by decide) h.nodup fun a ha => by
    obtain ⟨m, hm, rfl⟩ := List.mem_map.mp ha
    exact h.address m hm
  rwa [List.length_map] at hlt

theorem Represents.congr (h : Represents v l) (hlist : v'.mountList = v.mountList)
    (hsame : ∀ m ∈ l, v'.mountpoint m.address = v.mountpoint m.address) : Represents v' l := by
  refine ⟨hlist.trans h.first, h.linked.congr ?_ ?_, ?_, ?_, h.nodup, h.address⟩
  · intro a ha
    obtain ⟨m, hm, rfl⟩ := List.mem_map.mp ha
    rw [hsame m hm]
  · intro a ha
    obtain ⟨m, hm, rfl⟩ := List.mem_map.mp ha
    rw [hsame m hm]
  · exact fun m hm => by rw [hsame m hm, h.path m hm]
  · exact fun m hm => by rw [hsame m hm, h.fs m hm]

/-- The loop of `add_mountpoint` stops where the list places the new entry. -/
theorem insertionPoint_spec {q fuel : Nat} (hne : l ≠ [])
    (hlinked : Seg (fun a => (v.mountpoint a).next) (fun a => (v.mountpoint a).prev) q
      (l.map Mount.address) 0)
    (hpath : ∀ m ∈ l, (v.mountpoint m.address).path = m.path)
    (haddr : ∀ m ∈ l, 0 < m.address) (hfuel : l.length ≤ fuel) :
    ∃ l₁ c l₂, l = l₁ ++ c :: l₂ ∧ Ranked.insert Mount.rank m l = l₁ ++ m :: c :: l₂ ∧
      insertionPoint v m.path.length fuel ((l.map Mount.address).headD 0) = some c.address := by
  induction l generalizing q fuel with
  | nil => exact absurd rfl hne
  | cons c l ih =>
    obtain ⟨fuel, rfl⟩ : ∃ n, fuel = n + 1 :=
      ⟨fuel - 1, by simp only [List.length_cons] at hfuel; omega⟩
    obtain ⟨-, hnext, hlinked⟩ := hlinked
    simp only [List.map_cons, List.headD_cons, insertionPoint] at hnext ⊢
    rw [hpath c (by simp), hnext]
    cases l with
    | nil => exact ⟨[], c, [], rfl, rfl, by simp⟩
    | cons d l =>
      have hd := Nat.pos_iff_ne_zero.mp (haddr d (by simp))
      simp only [List.map_cons, List.headD_cons, hd, if_false]
      by_cases hlt : c.path.length < m.path.length
      · exact ⟨[], c, d :: l, rfl, by simp [Ranked.insert, Mount.rank, hlt], by simp [hlt]⟩
      · obtain ⟨l₁, e, l₂, hsplit, hinsert, hpoint⟩ := ih (by simp) hlinked
          (fun m hm => hpath m (List.mem_cons_of_mem _ hm))
          (fun m hm => haddr m (List.mem_cons_of_mem _ hm))
          (show (d :: l).length ≤ fuel by simpa using hfuel)
        refine ⟨c :: l₁, e, l₂, by rw [hsplit]; rfl, ?_, ?_⟩
        · rw [Ranked.insert, if_neg (by simpa [Mount.rank] using hlt), hinsert]
          rfl
        · rw [if_neg hlt]
          simpa using hpoint

/-- The mountpoints after the insertion of `a` in front of `current`. -/
def spliced (v : Vfs φ) (a current : Nat) : Vfs φ :=
  { v with
    mountList := if current = v.mountList then a else v.mountList
    mountpoint := fun x =>
      if x = a then { v.mountpoint a with next := current, prev := (v.mountpoint current).prev }
      else if x = current then { v.mountpoint current with prev := a }
      else if x = (v.mountpoint current).prev ∧ (v.mountpoint current).prev ≠ 0 then
        { v.mountpoint x with next := a }
      else v.mountpoint x }

/-- An insertion changes the links of the mountpoints only. -/
theorem spliced_data (v : Vfs φ) (a current x : Nat) :
    ((spliced v a current).mountpoint x).path = (v.mountpoint x).path ∧
      ((spliced v a current).mountpoint x).fs = (v.mountpoint x).fs := by
  dsimp only [spliced]
  split
  next he => rw [he]; exact ⟨rfl, rfl⟩
  next =>
    split
    next he => rw [he]; exact ⟨rfl, rfl⟩
    next => split <;> exact ⟨rfl, rfl⟩

theorem addMountpoint_eq {a current : Nat} (hcur : a ≠ current)
    (hprev : a ≠ (v.mountpoint current).prev) (hself : (v.mountpoint current).prev ≠ current)
    (hlist : v.mountList ≠ 0)
    (hpoint : insertionPoint v (v.mountpoint a).path.length maxMountpoints v.mountList =
      some current) :
    addMountpoint v a = some (spliced v a current) := by
  have hfirst : (if current = v.mountList then { v with mountList := a } else v) =
      { v with mountList := if current = v.mountList then a else v.mountList } := by
    split <;> rfl
  unfold addMountpoint spliced
  simp only [if_neg hlist, hpoint, Option.bind_eq_bind, Option.bind_some, hfirst, Vfs.setNext,
    Vfs.setPrev, Function.update_apply, hcur.symm, if_true, if_false]
  by_cases hnull : (v.mountpoint current).prev = 0
  · simp only [hnull, ne_eq, not_true_eq_false, if_false, and_false, Option.some.injEq]
    congr 1
    funext x
    by_cases hx : x = a
    · simp [hx, hcur]
    · by_cases hx' : x = current <;> simp [hx, hx', hcur.symm]
  · simp only [hnull, ne_eq, not_false_eq_true, if_true, and_true, Option.some.injEq]
    congr 1
    funext x
    by_cases hx : x = a
    · simp [hx, hcur, hprev]
    · by_cases hx' : x = current
      · simp [hx', hcur.symm, hself.symm]
      · by_cases hx'' : x = (v.mountpoint current).prev
        · simp [hx'', hself, hprev.symm]
        · simp [hx, hx', hx'']

/-- The links and the neighbours of an entry of the list, and of a fresh address. -/
structure Splits (v : Vfs φ) (l₁ : List (Mount φ)) (c : Mount φ) (l₂ : List (Mount φ))
    (a : Nat) : Prop where
  linked : Seg (fun a => (v.mountpoint a).next) (fun a => (v.mountpoint a).prev) 0
    (l₁.map Mount.address ++ c.address :: l₂.map Mount.address) 0
  nodup : (l₁.map Mount.address ++ c.address :: l₂.map Mount.address).Nodup
  prev_ne : (v.mountpoint c.address).prev ≠ c.address
  fresh : a ∉ l₁.map Mount.address ++ c.address :: l₂.map Mount.address
  fresh_ne : a ≠ c.address
  fresh_prev : a ≠ (v.mountpoint c.address).prev

theorem Represents.splits {c : Mount φ} {a : Nat} (h : Represents v (l₁ ++ c :: l₂))
    (hpos : 0 < a) (hfresh : a ∉ (l₁ ++ c :: l₂).map Mount.address) : Splits v l₁ c l₂ a := by
  have hlinked := h.linked
  have hnd := h.nodup
  rw [List.map_append, List.map_cons] at hlinked hnd hfresh
  have hprev : (v.mountpoint c.address).prev = Links.lastOr 0 (l₁.map Mount.address) :=
    hlinked.prev_eq
  have hlast : (v.mountpoint c.address).prev ≠ 0 →
      (l₁.map Mount.address).getLast? = some (v.mountpoint c.address).prev := by
    rw [hprev]
    exact Links.getLast?_eq_lastOr
  have hc0 : c.address ≠ 0 := Nat.pos_iff_ne_zero.mp (h.address c (by simp)).1
  have hcl₁ : c.address ∉ l₁.map Mount.address := by
    intro hmem
    exact (List.nodup_append.mp hnd).2.2 _ hmem _ (by simp) rfl
  refine ⟨hlinked, hnd, ?_, hfresh, fun he => hfresh (by simp [he]), ?_⟩
  · intro he
    have hmem := List.mem_of_getLast? (hlast (by rw [he]; exact hc0))
    exact hcl₁ (he ▸ hmem)
  · intro he
    have hmem := List.mem_of_getLast? (hlast (he ▸ Nat.pos_iff_ne_zero.mp hpos))
    exact hfresh (List.mem_append_left _ (he ▸ hmem))

theorem Splits.linked_spliced {c : Mount φ} {a : Nat} (h : Splits v l₁ c l₂ a)
    (h0 : ∀ d ∈ l₁, d.address ≠ 0) :
    Seg (fun x => ((spliced v a c.address).mountpoint x).next)
      (fun x => ((spliced v a c.address).mountpoint x).prev) 0
      (l₁.map Mount.address ++ a :: c.address :: l₂.map Mount.address) 0 := by
  have hnull : 0 ∉ l₁.map Mount.address := by
    intro hmem
    obtain ⟨d, hd, he⟩ := List.mem_map.mp hmem
    exact h0 d hd he
  refine (h.linked.insertBefore h.nodup h.fresh hnull).congr (fun x _ => ?_) fun x _ => ?_
  · dsimp only [spliced]
    split
    next => rfl
    next =>
      split
      next hx => rw [hx, if_neg fun he => h.prev_ne he.1.symm]
      next => split <;> rfl
  · dsimp only [spliced]
    split
    next => rfl
    next =>
      split
      next => rfl
      next => split <;> rfl

theorem Represents.splice {c : Mount φ} (h : Represents v (l₁ ++ c :: l₂))
    (hs : Splits v l₁ c l₂ m.address)
    (hm : v.mountpoint m.address = ⟨m.path, m.fs, 0, 0⟩)
    (hnd : ((l₁ ++ m :: c :: l₂).map Mount.address).Nodup)
    (haddr : ∀ d ∈ l₁ ++ m :: c :: l₂, 0 < d.address ∧ d.address < 2 ^ 32) :
    Represents (spliced v m.address c.address) (l₁ ++ m :: c :: l₂) := by
  have hdata : ∀ d ∈ l₁ ++ m :: c :: l₂, (v.mountpoint d.address).path = d.path ∧
      (v.mountpoint d.address).fs = d.fs := by
    intro d hd
    by_cases he : d = m
    · simp [he, hm]
    · have hd' : d ∈ l₁ ++ c :: l₂ := by
        simp only [List.mem_append, List.mem_cons] at hd ⊢
        tauto
      exact ⟨h.path d hd', h.fs d hd'⟩
  refine ⟨?_, ?_, ?_, ?_, hnd, haddr⟩
  · have hfirst := h.first
    cases l₁ with
    | nil =>
      have hcur : c.address = v.mountList := hfirst.symm
      simp [spliced, hcur]
    | cons d l₁ =>
      have hdc : c.address ≠ d.address := by
        intro he
        have hnd' := hs.nodup
        simp [he] at hnd'
      simp only [List.cons_append, List.map_cons, List.headD_cons] at hfirst ⊢
      rw [spliced, hfirst, if_neg hdc]
  · rw [List.map_append, List.map_cons, List.map_cons]
    refine hs.linked_spliced fun d hd => ?_
    exact Nat.pos_iff_ne_zero.mp (h.address d (by simp [hd])).1
  · intro d hd
    rw [(spliced_data v m.address c.address d.address).1, (hdata d hd).1]
  · intro d hd
    rw [(spliced_data v m.address c.address d.address).2, (hdata d hd).2]

/-- Inserting a mountpoint places its mount in the list. -/
theorem addMountpoint_represents (h : Represents v l) (hpos : 0 < m.address)
    (hlt : m.address < 2 ^ 32) (hfresh : m.address ∉ l.map Mount.address)
    (hm : v.mountpoint m.address = ⟨m.path, m.fs, 0, 0⟩) :
    ∃ v', addMountpoint v m.address = some v' ∧
      Represents v' (Ranked.insert Mount.rank m l) ∧ v'.usable = v.usable := by
  have haddr : ∀ d ∈ Ranked.insert Mount.rank m l, 0 < d.address ∧ d.address < 2 ^ 32 := by
    intro d hd
    rcases List.mem_cons.mp (Ranked.insert_perm.mem_iff.mp hd) with rfl | hd
    · exact ⟨hpos, hlt⟩
    · exact h.address d hd
  have hnd : ((Ranked.insert Mount.rank m l).map Mount.address).Nodup := by
    rw [(Ranked.insert_perm.map Mount.address).nodup_iff]
    exact List.nodup_cons.mpr ⟨hfresh, h.nodup⟩
  by_cases hne : l = []
  · subst hne
    have hnull : v.mountList = 0 := h.first
    refine ⟨{ v with mountList := m.address }, by rw [addMountpoint, if_pos hnull], ?_, rfl⟩
    exact ⟨rfl, by simp [Ranked.insert, hm], by simp [Ranked.insert, hm],
      by simp [Ranked.insert, hm], hnd, haddr⟩
  have hlist : v.mountList ≠ 0 := by
    rw [h.first]
    cases l with
    | nil => exact absurd rfl hne
    | cons d l => exact Nat.pos_iff_ne_zero.mp (h.address d (by simp)).1
  obtain ⟨l₁, c, l₂, rfl, hinsert, hpoint⟩ := insertionPoint_spec (m := m) hne h.linked h.path
    (fun d hd => (h.address d hd).1) (Nat.le_of_lt h.length_lt)
  rw [hinsert] at hnd haddr ⊢
  have hs := h.splits hpos hfresh
  have hpoint' : insertionPoint v (v.mountpoint m.address).path.length maxMountpoints
      v.mountList = some c.address := by
    rw [hm, h.first]
    exact hpoint
  exact ⟨_, addMountpoint_eq hs.fresh_ne hs.fresh_prev hs.prev_ne hlist hpoint',
    h.splice hs hm hnd haddr, rfl⟩

/-! ## Looking up a path -/

/-- What is passed on for a path below a mount path. -/
def remainder (mountPath path : Kstring) : Kstring :=
  if mountPath = ['/'] then path else path.drop mountPath.length

/-- The search delegates to the first mount whose path the given path starts with. -/
theorem delegate_spec {method : φ → Kstring → Option β} {q fuel : Nat}
    (hlinked : Seg (fun a => (v.mountpoint a).next) (fun a => (v.mountpoint a).prev) q
      (l.map Mount.address) 0)
    (hpath : ∀ m ∈ l, (v.mountpoint m.address).path = m.path)
    (hfs : ∀ m ∈ l, (v.mountpoint m.address).fs = m.fs)
    (haddr : ∀ m ∈ l, 0 < m.address) (hfuel : l.length < fuel) :
    delegate v method p fuel ((l.map Mount.address).headD 0) =
      some ((l.find? fun m => m.path.isPrefixOf p).elim none
        fun m => method m.fs (remainder m.path p)) := by
  induction l generalizing q fuel with
  | nil =>
    obtain ⟨fuel, rfl⟩ : ∃ n, fuel = n + 1 := ⟨fuel - 1, by omega⟩
    simp [delegate]
  | cons c l ih =>
    obtain ⟨fuel, rfl⟩ : ∃ n, fuel = n + 1 := ⟨fuel - 1, by omega⟩
    obtain ⟨-, hnext, hlinked⟩ := hlinked
    have hc := Nat.pos_iff_ne_zero.mp (haddr c (by simp))
    simp only [List.map_cons, List.headD_cons] at hnext ⊢
    rw [delegate, if_neg hc]
    simp only [hpath c (by simp), hfs c (by simp), hnext, substring_zero]
    have hstart : p.take c.path.length = c.path ↔ c.path.isPrefixOf p = true := by
      rw [List.isPrefixOf_iff_prefix, List.prefix_iff_eq_take, eq_comm]
    simp only [Option.bind_eq_bind, Option.bind_some]
    by_cases hmatch : c.path.isPrefixOf p = true
    · have heq := hstart.mpr hmatch
      have hle := (List.isPrefixOf_iff_prefix.mp hmatch).length_le
      rw [heq, substring_length p hle]
      simp only [List.find?_cons, hmatch, if_true, remainder, Option.elim_some]
      split <;> rfl
    · simp only [List.find?_cons, hmatch, if_neg (fun he => hmatch (hstart.mp he))]
      exact ih hlinked (fun m hm => hpath m (List.mem_cons_of_mem _ hm))
        (fun m hm => hfs m (List.mem_cons_of_mem _ hm))
        (fun m hm => haddr m (List.mem_cons_of_mem _ hm)) (by simpa using hfuel)

/-! ## Runs of mounts -/

def IsAbsolute (path : Kstring) : Prop := path.head? = some '/'

/-- A call of `vfs::mount`, with what `filesystem::initialize` and `new` return in it. -/
structure Call (φ : Type) where
  path : Kstring
  fs : Option φ
  address : Nat

/-- The interface object, and what has been mounted. -/
structure State (φ : Type) where
  vfs : Vfs φ
  mounts : List (Mount φ)

/-- Mount paths are absolute, and the heap hands out addresses that are not in use. -/
def Call.Allowed (s : State φ) (c : Call φ) : Prop :=
  IsAbsolute c.path ∧ 0 < c.address ∧ c.address < 2 ^ 32 ∧ ∀ m ∈ s.mounts, m.address ≠ c.address

def perform (s : State φ) (c : Call φ) : Option (State φ) :=
  (mount s.vfs c.path c.fs c.address).map fun
    | (.ok fs, vfs) => ⟨vfs, ⟨c.address, c.path, fs⟩ :: s.mounts⟩
    | (.error _, vfs) => ⟨vfs, s.mounts⟩

def Step (s : State φ) (c : Call φ) (t : State φ) : Prop := c.Allowed s ∧ perform s c = some t

/-- The interface object before the first mount. -/
def initial (memory : Nat → Mountpoint φ) : State φ := ⟨⟨0, memory, false⟩, []⟩

/-- The longest paths first, and a root mount at the end. -/
structure Ordered (l : List (Mount φ)) : Prop where
  descending : Ranked.Descending Mount.rank l
  root : ∀ m, l.getLast? = some m → m.path = ['/']
  absolute : ∀ m ∈ l, IsAbsolute m.path

/-- The memory represents the mounts in order. -/
def Sound (s : State φ) : Prop :=
  ∃ l, Represents s.vfs l ∧ Ordered l ∧ l.Perm s.mounts

variable {s t : State φ} {c : Call φ}

theorem Ordered.insert (h : Ordered l) (hm : IsAbsolute m.path) (hroot : l = [] → m.path = ['/']) :
    Ordered (Ranked.insert Mount.rank m l) := by
  refine ⟨Ranked.descending_insert h.descending ?_, ?_, ?_⟩
  · intro d hd
    rw [Mount.rank, Mount.rank, h.root d hd]
    cases hp : m.path with
    | nil => simp [IsAbsolute, hp] at hm
    | cons a p => simp
  · by_cases hl : l = []
    · subst hl
      simpa [Ranked.insert] using hroot rfl
    · rw [Ranked.insert_getLast? hl]
      exact h.root
  · intro d hd
    rcases List.mem_cons.mp (Ranked.insert_perm.mem_iff.mp hd) with rfl | hd
    · exact hm
    · exact h.absolute d hd

/-- A call leaves the mounts as they are, or places a new one among them. -/
theorem Represents.perform (hrep : Represents s.vfs l) (hord : Ordered l) (hperm : l.Perm s.mounts)
    (hc : c.Allowed s) :
    ∃ t, perform s c = some t ∧
      ((t.mounts = s.mounts ∧ Represents t.vfs l) ∨
        ∃ m, t.mounts = m :: s.mounts ∧ Represents t.vfs (Ranked.insert Mount.rank m l) ∧
          Ordered (Ranked.insert Mount.rank m l)) := by
  obtain ⟨habs, hpos, hlt, hfresh⟩ := hc
  unfold WagtailVfs.perform WagtailVfs.mount
  cases hfs : c.fs with
  | none => exact ⟨s, rfl, .inl ⟨rfl, hrep⟩⟩
  | some fs =>
    by_cases hearly : s.vfs.mountList = 0 ∧ c.path ≠ ['/']
    · exact ⟨s, by simp only [if_pos hearly, Option.map_some], .inl ⟨rfl, hrep⟩⟩
    · set v₁ : Vfs φ := (if c.path = ['/'] then { s.vfs with usable := true } else s.vfs) with hv₁
      have hlist : v₁.mountList = s.vfs.mountList := by rw [hv₁]; split <;> rfl
      have hmem : v₁.mountpoint = s.vfs.mountpoint := by rw [hv₁]; split <;> rfl
      have hfresh' : c.address ∉ l.map Mount.address := by
        intro hmem
        obtain ⟨m, hm, he⟩ := List.mem_map.mp hmem
        exact hfresh m (hperm.mem_iff.mp hm) he
      have hrep₂ : Represents (v₁.newMountpoint c.address c.path fs) l := by
        refine hrep.congr hlist ?_
        intro m hm
        have hne : m.address ≠ c.address := hfresh m (hperm.mem_iff.mp hm)
        simp [Vfs.newMountpoint, hne, hmem]
      obtain ⟨v', hadd, hrep', -⟩ := addMountpoint_represents (m := ⟨c.address, c.path, fs⟩) hrep₂
        hpos hlt hfresh' (by simp [Vfs.newMountpoint])
      refine ⟨⟨v', ⟨c.address, c.path, fs⟩ :: s.mounts⟩, ?_,
        .inr ⟨⟨c.address, c.path, fs⟩, rfl, hrep', hord.insert habs ?_⟩⟩
      · simp only at hadd
        simp [hearly, hadd]
      · rintro rfl
        by_contra hne
        exact hearly ⟨hrep.first, hne⟩

theorem Sound.mount (h : Sound s) (hc : c.Allowed s) : ∃ t, perform s c = some t ∧ Sound t := by
  obtain ⟨l, hrep, hord, hperm⟩ := h
  obtain ⟨t, ht, ⟨hmounts, hrep'⟩ | ⟨m, hmounts, hrep', hord'⟩⟩ := hrep.perform hord hperm hc
  · exact ⟨t, ht, l, hrep', hord, hmounts ▸ hperm⟩
  · refine ⟨t, ht, _, hrep', hord', ?_⟩
    rw [hmounts]
    exact Ranked.insert_perm.trans (hperm.cons m)

theorem run_represents {memory : Nat → Mountpoint φ} {calls : List (Call φ)}
    (hrun : Run Step (initial memory) calls s) : Sound s := by
  refine hrun.invariant ⟨[], ⟨rfl, trivial, by simp, by simp, by simp, by simp⟩, ?_, .refl _⟩ ?_
  · exact ⟨.nil, by simp, by simp⟩
  · rintro t c u hsound ⟨hallowed, hperform⟩
    obtain ⟨u', hu', hsound'⟩ := hsound.mount hallowed
    obtain rfl : u' = u := Option.some.inj (hu'.symm.trans hperform)
    exact hsound'

/-! ## Routing -/

/-- The path is the mount path, or lies below it at the end of a whole component. -/
def Covers (mountPath path : Kstring) : Prop :=
  mountPath <+: path ∧
    (mountPath = path ∨ mountPath.getLast? = some '/' ∨ path[mountPath.length]? = some '/')

/-- Both methods are passed on to the mount with the longest path that covers the path,
with the rest of the path; there is nothing to pass them on to before the first mount. -/
def Routed (s : State φ) (path : Kstring) : Prop :=
  (s.mounts = [] ∧ ∀ (β : Type) (method : φ → Kstring → Option β),
    openFile s.vfs method path = some none ∧ readDirectory s.vfs method path = some none) ∨
  ∃ m ∈ s.mounts, Covers m.path path ∧
    (∀ m' ∈ s.mounts, Covers m'.path path → m'.path.length ≤ m.path.length) ∧
    ∀ (β : Type) (method : φ → Kstring → Option β),
      openFile s.vfs method path = some (method m.fs (remainder m.path path)) ∧
      readDirectory s.vfs method path = some (method m.fs (remainder m.path path))

/-- The root mount covers every path. -/
theorem covers_root (hp : IsAbsolute p) : Covers ['/'] p := by
  cases p with
  | nil => simp [IsAbsolute] at hp
  | cons a p =>
    obtain rfl : a = '/' := by simpa [IsAbsolute] using hp
    exact ⟨by simp, by simp⟩

/-- The rest of a path tells how long the mount path in front of it was. -/
theorem length_eq_of_remainder {a b : Kstring} (ha : a <+: p) (hb : b <+: p)
    (ha' : IsAbsolute a) (hb' : IsAbsolute b) (h : remainder a p = remainder b p) :
    a.length = b.length := by
  have hlen := congrArg List.length h
  have hale := ha.length_le
  have hble := hb.length_le
  have ha0 : a ≠ [] := by rintro rfl; simp [IsAbsolute] at ha'
  have hb0 : b ≠ [] := by rintro rfl; simp [IsAbsolute] at hb'
  have ha1 := List.length_pos_iff.mpr ha0
  have hb1 := List.length_pos_iff.mpr hb0
  unfold remainder at hlen
  split at hlen <;> split at hlen
  next h₁ h₂ => rw [h₁, h₂]
  next h₁ h₂ =>
    rw [List.length_drop] at hlen
    omega
  next h₁ h₂ =>
    rw [List.length_drop] at hlen
    omega
  next h₁ h₂ =>
    rw [List.length_drop, List.length_drop] at hlen
    omega

/-- What a search of a sound state comes to: nothing is mounted, or the longest mount
path that the path starts with is taken. -/
theorem Sound.search (h : Sound s) (hp : IsAbsolute p) :
    (s.mounts = [] ∧ ∀ (β : Type) (method : φ → Kstring → Option β),
      openFile s.vfs method p = some none ∧ readDirectory s.vfs method p = some none) ∨
    ∃ m ∈ s.mounts, m.path <+: p ∧
      (∀ m' ∈ s.mounts, m'.path <+: p → m'.path.length ≤ m.path.length) ∧
      ∀ (β : Type) (method : φ → Kstring → Option β),
        openFile s.vfs method p = some (method m.fs (remainder m.path p)) ∧
        readDirectory s.vfs method p = some (method m.fs (remainder m.path p)) := by
  obtain ⟨l, hrep, hord, hperm⟩ := h
  have hfind : ∀ (β : Type) (method : φ → Kstring → Option β),
      delegate s.vfs method p maxMountpoints s.vfs.mountList =
        some ((l.find? fun m => m.path.isPrefixOf p).elim none
          fun m => method m.fs (remainder m.path p)) := by
    intro β method
    rw [hrep.first]
    exact delegate_spec hrep.linked hrep.path hrep.fs (fun m hm => (hrep.address m hm).1)
      hrep.length_lt
  cases hl : l.find? fun m => m.path.isPrefixOf p with
  | none =>
    left
    have hnil : l = [] := by
      by_contra hne
      have hroot := hord.root _ (List.getLast?_eq_some_getLast hne)
      have := List.find?_eq_none.mp hl _ (List.getLast_mem hne)
      rw [hroot, List.isPrefixOf_iff_prefix] at this
      exact this (covers_root hp).1
    subst hnil
    refine ⟨hperm.nil_eq.symm, fun β method => ?_⟩
    have := hfind β method
    rw [hl] at this
    exact ⟨this, this⟩
  | some m =>
    right
    have hm := List.mem_of_find?_eq_some hl
    refine ⟨m, hperm.mem_iff.mp hm, ?_, ?_, fun β method => ?_⟩
    · have hmatch := List.find?_some hl
      exact List.isPrefixOf_iff_prefix.mp hmatch
    · intro m' hm' hstart
      exact hord.descending.find?_max hl (hperm.mem_iff.mpr hm')
        (List.isPrefixOf_iff_prefix.mpr hstart)
    · have := hfind β method
      rw [hl] at this
      exact ⟨this, this⟩

/-- Paths are routed as they should be exactly when no mount path ends inside a component
of the path, unless a longer one ends at the end of a component. -/
theorem routed_iff {memory : Nat → Mountpoint φ} {calls : List (Call φ)}
    (hrun : Run Step (initial memory) calls s) (hp : IsAbsolute p) :
    Routed s p ↔ ∀ m ∈ s.mounts, m.path <+: p → ¬ Covers m.path p →
      ∃ m' ∈ s.mounts, Covers m'.path p ∧ m.path.length < m'.path.length := by
  have hsound := run_represents hrun
  have habs : ∀ m ∈ s.mounts, IsAbsolute m.path := by
    obtain ⟨l, -, hord, hperm⟩ := hsound
    exact fun m hm => hord.absolute m (hperm.mem_iff.mpr hm)
  rcases hsound.search hp with ⟨hnil, hnone⟩ | ⟨x, hx, hxp, hmax, hcall⟩
  · exact ⟨fun _ m hm => by simp [hnil] at hm, fun _ => Or.inl ⟨hnil, hnone⟩⟩
  constructor
  · rintro (⟨hnil, -⟩ | ⟨m, hm, hcover, -, hcall'⟩) m' hm' hstart hnot
    · simp [hnil] at hx
    -- the longest match is as long as the covering one, hence equal to it
    have hrest : remainder x.path p = remainder m.path p := by
      have h₁ := (hcall _ fun fs path => some (fs, path)).1
      have h₂ := (hcall' _ fun fs path => some (fs, path)).1
      have := h₁.symm.trans h₂
      simp only [Option.some.injEq, Prod.mk.injEq] at this
      exact this.2
    have hlen := length_eq_of_remainder hxp hcover.1 (habs x hx) (habs m hm) hrest
    refine ⟨m, hm, hcover, ?_⟩
    refine Nat.lt_of_le_of_ne (hlen ▸ hmax m' hm' hstart) ?_
    intro heq
    rw [List.prefix_iff_eq_take] at hstart
    have hcover' := List.prefix_iff_eq_take.mp hcover.1
    exact hnot (by rwa [hstart, heq, ← hcover'])
  · intro hbound
    refine Or.inr ⟨x, hx, ?_, fun m' hm' hcover => hmax m' hm' hcover.1, hcall⟩
    by_contra hnot
    obtain ⟨m', hm', hcover, hlt⟩ := hbound x hx hxp hnot
    exact absurd (hmax m' hm' hcover.1) (by omega)

/-! ## A captured sibling -/

def rootCall : Call Nat := ⟨['/'], some 10, 1024⟩
def mntCall : Call Nat := ⟨['/', 'm', 'n', 't'], some 11, 2048⟩

/-- Before any mount; the memory holds nothing yet. -/
def unmounted : State Nat := initial fun _ => ⟨[], 0, 0, 0⟩

def afterRoot : State Nat := (perform unmounted rootCall).get (by decide +kernel)
def afterMnt : State Nat := (perform afterRoot mntCall).get (by decide +kernel)

theorem afterRoot_mounts : afterRoot.mounts = [⟨1024, ['/'], 10⟩] := by decide +kernel

theorem afterMnt_mounts :
    afterMnt.mounts = [⟨2048, ['/', 'm', 'n', 't'], 11⟩, ⟨1024, ['/'], 10⟩] := by
  decide +kernel

/-- Filesystem 10 is mounted on the root, then filesystem 11 on a directory of it. -/
theorem mnt_run : Run Step unmounted [rootCall, mntCall] afterMnt := by
  have hroot : Step unmounted rootCall afterRoot := by
    refine ⟨⟨rfl, by decide, by decide, ?_⟩, (Option.some_get _).symm⟩
    simp [unmounted, initial]
  have hmnt : Step afterRoot mntCall afterMnt := by
    refine ⟨⟨rfl, by decide, by decide, ?_⟩, (Option.some_get _).symm⟩
    rw [afterRoot_mounts]
    decide
  exact .snoc (.snoc .nil hroot) hmnt

theorem covers_iff (a b : Kstring) : Covers a b ↔
    a.isPrefixOf b ∧ (a = b ∨ a.getLast? = some '/' ∨ b[a.length]? = some '/') := by
  rw [Covers, List.isPrefixOf_iff_prefix]

/-- A file below the mounted directory goes to the mounted filesystem. -/
theorem mnt_routed : Routed afterMnt ['/', 'm', 'n', 't', '/', 'f'] := by
  refine (routed_iff mnt_run (p := ['/', 'm', 'n', 't', '/', 'f']) rfl).mpr ?_
  rw [afterMnt_mounts]
  simp only [covers_iff, List.forall_mem_cons]
  refine ⟨fun _ h => absurd (by decide) h, fun _ h => absurd (by decide) h, by simp⟩

/-- A file in a sibling whose name goes on where the mount path ends is not served by the
root filesystem that holds it. -/
theorem sibling_captured :
    Run Step unmounted [rootCall, mntCall] afterMnt ∧
      openFile afterMnt.vfs (fun fs path => some (fs, path)) ['/', 'm', 'n', 't', 'x', '/', 'f'] =
        some (some (11, ['x', '/', 'f'])) ∧
      ¬ Routed afterMnt ['/', 'm', 'n', 't', 'x', '/', 'f'] := by
  have hopen : openFile afterMnt.vfs (fun fs path => some (fs, path))
      ['/', 'm', 'n', 't', 'x', '/', 'f'] = some (some (11, ['x', '/', 'f'])) := by
    decide +kernel
  refine ⟨mnt_run, hopen, ?_⟩
  rintro (⟨hnil, -⟩ | ⟨m, hm, hcover, -, hcall⟩)
  · rw [afterMnt_mounts] at hnil
    exact absurd hnil (by simp)
  · rw [afterMnt_mounts] at hm
    rcases List.mem_cons.mp hm with rfl | hm
    · rw [covers_iff] at hcover
      exact absurd hcover (by decide)
    · obtain rfl := List.mem_singleton.mp hm
      have := (hcall _ fun fs path => some (fs, path)).1
      rw [hopen] at this
      simp at this

end WagtailVfs
