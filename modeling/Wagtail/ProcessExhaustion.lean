import Wagtail.ProcessRuns

/-!
# Processes without enough pages

`setup_addrspace` does not look at what the page allocator returns. When the
stack of pages runs empty, page 0 is mapped, and the constructors report a
process that is usable.
-/
namespace WagtailProcess

open WagtailMm (Mm)
open WagtailMmu
open Runs (ok_of_bind)

variable {translate new : Nat → Nat} {w u : World} {table pid : Nat}

/-- What a process is made of. -/
inductive Source where
  | executable (header : Header) (buffer : Nat → Nat)
  | parent (proc : Process)

def construct (translate new : Nat → Nat) (w : World) (table pid : Nat) :
    Source → Except Fault (World × Process)
  | .executable header buffer => processFromBuffer translate new w table pid header buffer
  | .parent parent => processFromParent translate new w table pid parent

/-- The pages that are mapped for it. -/
def Source.requests : Source → List Request
  | .executable header _ =>
    WagtailProcess.requests header.codePages header.dataPages stackPagesDefault
  | .parent proc => proc.requests

/-- After some rounds of the loops of `setup_addrspace`. -/
def Reaches (translate new : Nat → Nat) (w : World) (table pid : Nat) (done : List Request)
    (t : World) : Prop :=
  done.foldlM (mapNew translate new table) (newProcess w table pid).1 = .ok t

/-- If the page allocator returns null in a round, the process is not usable, and at no point is
page 0 mapped. -/
structure Reported (translate new : Nat → Nat) (w : World) (table pid : Nat) (source : Source)
    (proc : Process) : Prop where
  usable : ∀ done r rest t, source.requests = done ++ r :: rest →
    Reaches translate new w table pid done t → t.memory.mm.allocatePage.1 = 0 →
    proc.usable = false
  null : ∀ done rest t, source.requests = done ++ rest →
    Reaches translate new w table pid done t → ∀ v, t.walk table v ≠ some 0

/-! ## The steps of a construction -/

theorem setupAddrspace_ok {proc proc' : Process}
    (h : setupAddrspace translate new w proc = .ok (u, proc')) :
    proc.requests.foldlM (mapNew translate new proc.translationTable) w = .ok u := by
  rw [setupAddrspace_eq] at h
  obtain ⟨t, ht, h⟩ := ok_of_bind h
  obtain ⟨rfl, -⟩ := Prod.mk.inj (Except.ok.inj h)
  exact ht

/-- A process that has been constructed has had its pages mapped, and is usable. -/
theorem construct_ok {source : Source} {proc : Process}
    (h : construct translate new w table pid source = .ok (u, proc)) :
    (∃ t, Reaches translate new w table pid source.requests t) ∧ proc.usable = true := by
  cases source with
  | executable header buffer =>
    rw [construct, processFromBuffer_eq] at h
    obtain ⟨s, hsetup, h⟩ := ok_of_bind h
    obtain ⟨w₁, -, h⟩ := ok_of_bind h
    obtain ⟨w₂, -, h⟩ := ok_of_bind h
    obtain ⟨-, rfl⟩ := Prod.mk.inj (Except.ok.inj h)
    exact ⟨⟨s.1, setupAddrspace_ok hsetup⟩, rfl⟩
  | parent parent =>
    rw [construct, processFromParent_eq] at h
    obtain ⟨s, hsetup, h⟩ := ok_of_bind h
    obtain ⟨t, -, h⟩ := ok_of_bind h
    obtain ⟨-, rfl⟩ := Prod.mk.inj (Except.ok.inj h)
    exact ⟨⟨s.1, setupAddrspace_ok hsetup⟩, rfl⟩

/-- A page that has been mapped is below the end of the table. -/
theorem mapNew_inRange {r : Request} (h : mapNew translate new table w r = .ok u) :
    r.address >>> 20 < 2048 := by
  by_contra hout
  have herror : ∀ m (t : TranslationTable 2048) page, mapPage translate new m t page r.address
      r.permissions r.type false = .error .range := by
    intro m t page
    rw [mapPage, dif_neg hout]
  simp [mapNew, herror, bind, Except.bind] at h

/-- The rounds before one. -/
theorem Reaches.split {done rest : List Request} {t : World}
    (h : Reaches translate new w table pid (done ++ rest) t) :
    ∃ s, Reaches translate new w table pid done s ∧
      rest.foldlM (mapNew translate new table) s = .ok t := by
  rw [Reaches, List.foldlM_append] at h
  exact ok_of_bind h

theorem Reaches.inRange {rs : List Request} {t : World}
    (h : Reaches translate new w table pid rs t) : InRange rs := by
  intro r hr
  obtain ⟨done, rest, rfl⟩ := List.append_of_mem hr
  obtain ⟨s, -, hs⟩ := h.split
  rw [List.foldlM_cons] at hs
  obtain ⟨s', hs', -⟩ := ok_of_bind hs
  exact mapNew_inRange hs'

/-- After some rounds their requests are met. -/
theorem Reaches.grown (heap : HeapPages translate new)
    (hw : Valid translate new (newProcess w table pid).1) {rs : List Request} {t : World}
    (h : Reaches translate new w table pid rs t) :
    Grown translate new table (newProcess w table pid).1 rs t := by
  obtain ⟨t', ht', hgrown⟩ | herror := mapAll_spec heap hw table h.inRange
  · obtain rfl := Except.ok.inj (h.symm.trans ht')
    exact hgrown
  · cases h.symm.trans herror

/-! ## When failures are reported -/

/-- A round in which the page allocator has a page left. -/
theorem allocatePage_ne_zero (hw : Valid translate new w) (hfree : w.free ≠ []) :
    w.memory.mm.allocatePage.1 ≠ 0 := by
  rw [allocatePage_eq hw.ready]
  obtain ⟨page, rest, hcons⟩ := List.exists_cons_of_ne_nil hfree
  have hne := (hw.address page (by simp [hcons])).1
  have hhead : w.free.headD 0 = page := by simp [hcons]
  exact fun hzero => hne (hhead.symm.trans hzero)

theorem allocatePage_zero (hw : Valid translate new w) (hfree : w.free = []) :
    w.memory.mm.allocatePage.1 = 0 := by
  rw [allocatePage_eq hw.ready]
  have hhead : w.free.headD 0 = 0 := by simp [hfree]
  exact hhead

theorem Reported.enough (heap : HeapPages translate new) (hw : Valid translate new w)
    (hnone : ∀ v, w.walk table v = none) {source : Source} {proc : Process}
    (hok : construct translate new w table pid source = .ok (u, proc))
    (h : Reported translate new w table pid source proc) :
    source.requests.length ≤ w.free.length := by
  by_contra hless
  rw [Nat.not_le] at hless
  obtain ⟨⟨t, ht⟩, husable⟩ := construct_ok hok
  have hw₀ := (newProcess_valid heap hw hnone pid).1
  -- the round after the last page has been taken
  have hsplit : source.requests = source.requests.take w.free.length ++
      source.requests[w.free.length] :: source.requests.drop (w.free.length + 1) := by simp
  rw [hsplit] at ht
  obtain ⟨s, hs, -⟩ := ht.split
  have hgrown := hs.grown heap hw₀
  have hempty : s.free = [] := by
    rw [hgrown.free, List.length_take_of_le hless.le]
    exact List.drop_length
  have hfalse := h.usable _ _ _ s hsplit hs (allocatePage_zero hgrown.valid hempty)
  rw [husable] at hfalse
  cases hfalse

theorem reported_of_enough (heap : HeapPages translate new) (hw : Valid translate new w)
    (hnone : ∀ v, w.walk table v = none) {source : Source} (proc : Process)
    (henough : source.requests.length ≤ w.free.length) :
    Reported translate new w table pid source proc := by
  obtain ⟨hw₀, hwalk₀⟩ := newProcess_valid heap hw hnone pid
  have hnone₀ : ∀ v, (newProcess w table pid).1.walk table v = none :=
    fun v => (hwalk₀ table v).trans (hnone v)
  constructor
  · intro done r rest t hsplit ht hzero
    have hgrown := Reaches.grown heap hw₀ ht
    have hlength : done.length < w.free.length := by
      rw [hsplit, List.length_append, List.length_cons] at henough
      omega
    have hleft : t.free ≠ [] := by
      rw [hgrown.free]
      exact fun hnil => absurd (List.drop_eq_nil_iff.mp hnil) (Nat.not_le.mpr hlength)
    exact absurd hzero (allocatePage_ne_zero hgrown.valid hleft)
  · intro done rest t hsplit ht v hnull
    have hgrown := Reaches.grown heap hw₀ ht
    have hlength : done.length ≤ w.free.length := by
      rw [hsplit, List.length_append] at henough
      omega
    have hpage : 0 ∈ w.free := hgrown.fresh hnone₀ hlength hnull
    exact (hw.address 0 hpage).1 rfl

/-- Failures of the page allocator are reported, and page 0 is not mapped, exactly if there are
enough pages for the process. -/
theorem reported_iff (heap : HeapPages translate new) (hw : Valid translate new w)
    (hnone : ∀ v, w.walk table v = none) {source : Source} {proc : Process}
    (hok : construct translate new w table pid source = .ok (u, proc)) :
    Reported translate new w table pid source proc ↔
      source.requests.length ≤ w.free.length :=
  ⟨Reported.enough heap hw hnone hok, reported_of_enough heap hw hnone proc⟩

/-- With sixteen pages everything is in order. -/
theorem small_reported : ∃ u proc, construct id supply (bare 16).world 0x80010000 1
    (.executable smallHeader fun _ => 0) = .ok (u, proc) ∧
    Reported id supply (bare 16).world 0x80010000 1 (.executable smallHeader fun _ => 0) proc := by
  obtain ⟨u, proc, hmade, -⟩ := create_small (n := 16) (by decide) (by decide +kernel)
  have hok : construct id supply (bare 16).world 0x80010000 1
    (.executable smallHeader fun _ => 0) = .ok (u, proc) := hmade
  refine ⟨u, proc, hok, ?_⟩
  apply (reported_iff heapPages_supply (bare_valid (by decide)) (bare_walk 16 _) hok).mpr
  decide +kernel

/-- Without pages the process is said to be usable, and page 0 is mapped in it. -/
theorem small_unreported : ∃ u proc, construct id supply (bare 0).world 0x80010000 1
    (.executable smallHeader fun _ => 0) = .ok (u, proc) ∧
    proc.usable = true ∧ (∃ v, u.walk 0x80010000 v = some 0) ∧
    ¬ Reported id supply (bare 0).world 0x80010000 1 (.executable smallHeader fun _ => 0) proc := by
  obtain ⟨u, proc, hmade, -, ⟨t, -, hgrown, htables, hmemory⟩, -⟩ :=
    create_small (n := 0) (by decide) (by decide +kernel)
  have hok : construct id supply (bare 0).world 0x80010000 1
    (.executable smallHeader fun _ => 0) = .ok (u, proc) := hmade
  obtain ⟨v, hnull⟩ := hgrown.null (by decide +kernel)
  refine ⟨u, proc, hok, (construct_ok hok).2, ⟨v, ?_⟩, fun hreported => ?_⟩
  · rw [World.walk, htables, hmemory]
    exact hnull
  · have henough :=
      hreported.enough heapPages_supply (bare_valid (by decide)) (bare_walk 0 _) hok
    exact absurd henough (by decide +kernel)

end WagtailProcess
