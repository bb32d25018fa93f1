import MtEmu.Lib.Lookup
import MtEmu.Mmu.Pools

/-!
# MtEmu.Mmu.Unmap

`gen_page_desc` with `entry_valid` zero, for a page that is mapped.

It writes an invalid entry at every level, also where other pages go through that entry: what
another page loses is said by the entries of the page and those that the walk of the other one
reads (`translate_unmap_iff`).  Where the pages of one pool index lie behind one entry of the
page catalogue, this comes down to the entry of the page catalogue (`shares_iff`).
-/

namespace MtEmu

open Lookup

/-- A call of `gen_page_desc`, less `entry_valid`. -/
structure MmuPage where
  va : U64
  ctxtId : BitVec 8
  index : BitVec 8
  size : PageSize
  deriving DecidableEq

namespace MmuPage

/-- `gen_page_desc`. -/
def gen (pa : Nat → Nat → U64) (entryValid : BitVec 8) (q : MmuPage) (s : PageTables) :
    PageTables :=
  genPageDesc pa q.va q.ctxtId q.index q.size.val entryValid s

/-- The page catalogue of its context. -/
def root (q : MmuPage) : U64 := (mmuPcBaseAddr >>> 12) + q.ctxtId.zeroExtend 64

/-- The page that it is translated to. -/
def translate (mem : U64 → Option U64) (q : MmuPage) : Option U64 :=
  walk mem q.size.val.toNat q.root q.va

/-- The address of its entry in the page catalogue. -/
def pcAddr (q : MmuPage) : U64 := entryAddr q.root (pcIndex q.va)

section Levels

variable (pa : Nat → Nat → U64) (q : MmuPage) (s : PageTables)

/-- The search of the records for the page root, and the address of the entry there; likewise
for the levels below. -/
def pr : Entered :=
  s.pc.enter q.ctxtId.toNat q.index.toNat q.pcAddr q.pcAddr (pa q.ctxtId.toNat (q.index.toNat * 4))

@[inherit_doc pr]
def prAddr : U64 := entryAddr (q.pr pa s).base (prIndex q.size.val.toNat q.va)

@[inherit_doc pr]
def pd : Entered :=
  s.pr.enter q.ctxtId.toNat q.index.toNat (q.prAddr pa s) q.pcAddr
    (pa q.ctxtId.toNat (q.index.toNat * 4 + 1))

@[inherit_doc pr]
def pdAddr : U64 := entryAddr (q.pd pa s).base (pdIndex q.size.val.toNat q.va)

@[inherit_doc pr]
def pt : Entered :=
  s.pd.enter q.ctxtId.toNat q.index.toNat (q.pdAddr pa s) (q.pdAddr pa s)
    (pa q.ctxtId.toNat (q.index.toNat * 4 + 2))

@[inherit_doc pr]
def ptAddr : U64 := entryAddr (q.pt pa s).base (ptIndex q.size.val.toNat q.va)

@[inherit_doc pr]
def page : Entered :=
  s.pt.enter q.ctxtId.toNat q.index.toNat (q.ptAddr pa s) (q.ptAddr pa s)
    (pa q.ctxtId.toNat (q.index.toNat * 4 + 3))

/-- The entries that `gen_page_desc` sets up for it; large pages do without a page root. -/
def entries : List U64 :=
  q.pcAddr :: (if q.size.val.toNat < 5 then [q.prAddr pa s] else []) ++
    [q.pdAddr pa s, q.ptAddr pa s]

end Levels

/-- The lookups of a page walk. -/
def chain (q : MmuPage) : Chain U64 U64 U64 :=
  let size := q.size.val.toNat
  let rest (pdBase : U64) : Chain U64 U64 U64 :=
    .look (entryAddr pdBase (pdIndex size q.va)) fun pd =>
      .look (entryAddr (entryBase pd) (ptIndex size q.va)) fun pt => .done (entryBase pt)
  .look (entryAddr q.root (pcIndex q.va)) fun pc =>
    if entryFlag pc = 0 then
      .look (entryAddr (entryBase pc) (prIndex size q.va)) fun pr => rest (entryBase pr)
    else rest (entryBase pc)

/-- The entries that its walk reads. -/
def reads (mem : U64 → Option U64) (q : MmuPage) : List U64 := q.chain.keys (readValid mem)

end MmuPage

/-! ## what is written -/

/-- An entry whose lowest bit is clear. -/
theorem readValid_of_clear {mem : U64 → Option U64} {a e : U64} (he : mem a = some e)
    (hclear : e.getLsbD 0 = false) : readValid mem a = none := by
  rw [readValid, he, Option.filter_some, if_neg]
  intro hvalid
  have hbit : (e &&& 0x1).getLsbD 0 = (0x1 : U64).getLsbD 0 := by rw [beq_iff_eq.mp hvalid]
  rw [BitVec.getLsbD_and, hclear] at hbit
  exact absurd hbit (by decide)

theorem readValid_update_of_ne {mem : U64 → Option U64} {a b : U64} (e : Option U64) (h : b ≠ a) :
    readValid (Function.update mem a e) b = readValid mem b := by
  rw [readValid, readValid, Function.update_of_ne h]

/-- An invalid entry is stored. -/
theorem readValid_storeIf {mem : U64 → Option U64} {a e : U64} {cond : Bool}
    (hclear : e.getLsbD 0 = false) (b : U64) :
    readValid (storeIf cond a e mem) b = if cond ∧ b = a then none else readValid mem b := by
  cases cond with
  | false => simp [storeIf]
  | true =>
      by_cases hb : b = a
      · obtain rfl := hb
        rw [if_pos ⟨rfl, rfl⟩]
        exact readValid_of_clear (Function.update_self ..) hclear
      · rw [if_neg fun h => hb h.2]
        exact readValid_update_of_ne _ hb

theorem pcDesc_clear (c : Prop) [Decidable c] (base base' : U64) :
    (if c then pcDesc 0 1 base else pcDesc 0 0 base').context.getLsbD 0 = false := by
  split <;> simp [PcDesc.context, pcDesc]

theorem prDesc_clear (base : U64) : (prDesc 0 base).context.getLsbD 0 = false := by
  simp [PrDesc.context, prDesc]

theorem pdDesc_clear (size base : U64) : (pdDesc 0 size base).context.getLsbD 0 = false := by
  simp [PdDesc.context, pdDesc]

theorem ptDesc_clear (page size base : U64) :
    ((ptDesc 0 page).context (pdDesc 0 size base)).getLsbD 0 = false := by
  simp [PtDesc.context, ptDesc, pdDesc]

section Step

variable (pa : Nat → Nat → U64) (q : MmuPage) (s : PageTables)

/-- The entries behind a call. -/
theorem gen_mem (v : BitVec 8) :
    (q.gen pa v s).mem = (
      storeIf (!(q.page pa s).found || v == 0) (q.ptAddr pa s)
        ((ptDesc (v.zeroExtend 64) (q.page pa s).base).context
          (pdDesc (v.zeroExtend 64) (q.size.val.zeroExtend 64) (q.pt pa s).base)) <|
      storeIf (!(q.pt pa s).found || v == 0) (q.pdAddr pa s)
        (pdDesc (v.zeroExtend 64) (q.size.val.zeroExtend 64) (q.pt pa s).base).context <|
      storeIf (q.size.val.toNat < 5 && (!(q.pd pa s).found || v == 0)) (q.prAddr pa s)
        (prDesc (v.zeroExtend 64) (q.pd pa s).base).context <|
      storeIf (!(q.pr pa s).found || v == 0) q.pcAddr
        (if q.size.val.toNat ≥ 5 then pcDesc (v.zeroExtend 64) 1 (q.pd pa s).base
          else pcDesc (v.zeroExtend 64) 0 (q.pr pa s).base).context s.mem) :=
  rfl

/-- **The step**: the entries of the page are invalid, all others as they were. -/
theorem readValid_gen_zero :
    readValid (q.gen pa 0 s).mem = Chain.without (readValid s.mem) (· ∈ q.entries pa s) := by
  funext a
  have hvalid : BitVec.zeroExtend 64 (0 : BitVec 8) = 0 := rfl
  have hinv : ((0 : BitVec 8) == 0) = true := rfl
  simp only [gen_mem, hvalid, hinv, Bool.or_true, Bool.and_true,
    readValid_storeIf (pcDesc_clear _ _ _), readValid_storeIf (prDesc_clear _),
    readValid_storeIf (pdDesc_clear _ _), readValid_storeIf (ptDesc_clear _ _ _), true_and,
    decide_eq_true_eq, Chain.without, MmuPage.entries, List.cons_append, List.mem_cons,
    List.mem_append, List.not_mem_nil, or_false]
  by_cases hs : q.size.val.toNat < 5
  · simp only [hs, true_and, if_true, List.mem_singleton]
    grind
  · simp only [hs, false_and, if_false, List.not_mem_nil, false_or]
    grind

/-- The page walk is its chain of lookups. -/
theorem translate_eq_run (mem : U64 → Option U64) :
    q.translate mem = q.chain.run (readValid mem) := by
  simp only [MmuPage.translate, walk, walkRoot, MmuPage.chain, Chain.run, Option.bind_eq_bind]
  refine Option.bind_congr fun pc _ => ?_
  by_cases hflag : entryFlag pc = 0
  · simp only [hflag, if_true, Chain.run, Option.bind_map]
    rfl
  · simp only [hflag, if_false, Chain.run, Option.bind_some]
    rfl

/-- The page does not translate any more. -/
theorem translate_unmap_self : q.translate (q.gen pa 0 s).mem = none := by
  rw [translate_eq_run, readValid_gen_zero]
  exact Chain.run_without_eq_none q.pcAddr List.mem_cons_self
    (List.mem_append_left _ List.mem_cons_self)

/-- **Another page** translates as before exactly when it did not translate, or its walk reads
none of the entries of the page. -/
theorem translate_unmap_iff (q' : MmuPage) :
    q'.translate (q.gen pa 0 s).mem = q'.translate s.mem ↔
      q'.translate s.mem = none ∨ ∀ a ∈ q'.reads s.mem, a ∉ q.entries pa s := by
  rw [translate_eq_run, translate_eq_run, readValid_gen_zero]
  exact Chain.run_without_iff _

end Step

/-! ## tables of one catalogue entry -/

/-- Whose table an address is in: the catalogue entry `x` of context `c` itself, or a table of
a pool index whose pages lie behind it, `cat c d` being the entry for pool index `d`. -/
inductive Behind (cat : Nat → Nat → U64) (c : Nat) (x : U64) : U64 → Prop where
  | pc : Behind cat c x (site .pc c 0 x)
  | table {l : TableLevel} {d : Nat} {i : U64} (hl : l ≠ .pc) (hd : d < 256) (hi : i.toNat < 512)
      (hx : cat c d = x) : Behind cat c x (site l c d i)

/-- What the entries found lead to: a table behind the same catalogue entry. -/
inductive LeadsOn (cat : Nat → Nat → U64) : U64 → U64 → Prop where
  | pc {c d : Nat} {e : U64} (hc : c < 256) (hd : d < 256)
      (he : entryFlag e = 0 ∧ entryBase e = frameOf .pr c d ∨
        entryFlag e ≠ 0 ∧ entryBase e = frameOf .pd c d) :
      LeadsOn cat (site .pc c 0 (cat c d)) e
  | pr {c d d' : Nat} {i e : U64} (hc : c < 256) (hd : d < 256) (hi : i.toNat < 512)
      (hd' : d' < 256) (hcat : cat c d' = cat c d) (he : entryBase e = frameOf .pd c d') :
      LeadsOn cat (site .pr c d i) e
  | pd {c d d' : Nat} {i e : U64} (hc : c < 256) (hd : d < 256) (hi : i.toNat < 512)
      (hd' : d' < 256) (hcat : cat c d' = cat c d) (he : entryBase e = frameOf .pt c d') :
      LeadsOn cat (site .pd c d i) e
  | pt {c d : Nat} {i e : U64} (hc : c < 256) (hd : d < 256) (hi : i.toNat < 512) :
      LeadsOn cat (site .pt c d i) e

/-- What holds of the records and the entries when the pages of a pool index all lie behind
one catalogue entry. -/
structure ByCatalogue (cat : Nat → Nat → U64) (s : PageTables) : Prop where
  pc : ∀ p, s.pc.addr p = unusedAddr ∨ ∃ c d, c < 256 ∧ d < 256 ∧
    s.pc.addr p = site .pc c 0 (cat c d) ∧ s.pc.base p = frameOf .pr c d
  pr : ∀ p, s.pr.addr p = unusedAddr ∨ ∃ c i, c < 256 ∧ i.toNat < 512 ∧
    s.pr.addr p = site .pc c 0 i
  pd : ∀ p, s.pd.addr p = unusedAddr ∨ ∃ c d d' i, c < 256 ∧ d < 256 ∧ d' < 256 ∧ i.toNat < 512 ∧
    s.pd.addr p = site .pd c d i ∧ s.pd.base p = frameOf .pt c d' ∧ cat c d' = cat c d
  mem : ∀ a e, s.mem a = some e → LeadsOn cat a e

section ByCatalogue

variable {cat : Nat → Nat → U64} {c c' : Nat} {x x' a : U64}

/-- An address is behind one catalogue entry only. -/
theorem Behind.unique (hc : c < 256) (hx : x.toNat < 512) (hc' : c' < 256) (hx' : x'.toNat < 512)
    (h : Behind cat c x a) (h' : Behind cat c' x' a) : c = c' ∧ x = x' := by
  cases h with
  | pc =>
      generalize ha : site .pc c 0 x = b at h'
      cases h' with
      | pc =>
          obtain ⟨-, hcc, -, hxx⟩ := site_inj hc (by decide) hx hc' (by decide) hx' ha
          exact ⟨hcc, hxx⟩
      | table hl hd hi _ =>
          exact absurd (site_inj hc (by decide) hx hc' hd hi ha).1.symm hl
  | @table l d i hl hd hi hcat =>
      generalize ha : site l c d i = b at h'
      cases h' with
      | pc => exact absurd (site_inj hc hd hi hc' (by decide) hx' ha).1 hl
      | table _ hd' hi' hcat' =>
          obtain ⟨rfl, rfl, hdd, -⟩ := site_inj hc hd hi hc' hd' hi' ha
          obtain rfl := hdd.resolve_left hl
          exact ⟨rfl, hcat.symm.trans hcat'⟩

/-- The pool that the pages come from, `sizes i j` being `va_page_size[i][j]`. -/
def paPools (sizes : Nat → Nat → PageSize) (i j : Nat) : U64 := paPoolOf (sizes i) i j

variable (sizes : Nat → Nat → PageSize) {q : MmuPage} {s : PageTables}

theorem paPools_table (hc : c < 256) (d : Nat) :
    paPools sizes c (d * 4) = frameOf .pr c d ∧ paPools sizes c (d * 4 + 1) = frameOf .pd c d ∧
      paPools sizes c (d * 4 + 2) = frameOf .pt c d := by
  simp only [paPools, frameOf]
  rw [paPoolOf_table _ .k4 c (by omega), paPoolOf_table _ .k4 c (by omega),
    paPoolOf_table _ .k4 c (by omega)]
  exact ⟨paPool_pr .k4 d hc, paPool_pd .k4 d hc, paPool_pt .k4 d hc⟩

theorem pcAddr_eq (q : MmuPage) : q.pcAddr = site .pc q.ctxtId.toNat 0 (pcIndex q.va) := by
  rw [MmuPage.pcAddr, MmuPage.root, pcBase_eq]
  rfl

/-- The page lies behind the catalogue entry of its pool index. -/
def MmuPage.BehindCat (cat : Nat → Nat → U64) (q : MmuPage) : Prop :=
  cat q.ctxtId.toNat q.index.toNat = pcIndex q.va

section Searches

variable (hlt : ∀ c d, (cat c d).toNat < 512) (h : ByCatalogue cat s) (hq : q.BehindCat cat)

include hlt h hq in
theorem pr_base : ∃ d < 256, (q.pr (paPools sizes) s).base = frameOf .pr q.ctxtId.toNat d ∧
    cat q.ctxtId.toNat d = pcIndex q.va := by
  have hc : q.ctxtId.toNat < 256 := q.ctxtId.isLt
  have hi := pcIndex_lt q.va
  rw [MmuPage.pr, pcAddr_eq]
  rcases enter_cases s.pc q.ctxtId.toNat q.index.toNat (site .pc q.ctxtId.toNat 0 (pcIndex q.va))
    (site .pc q.ctxtId.toNat 0 (pcIndex q.va)) (paPools sizes q.ctxtId.toNat (q.index.toNat * 4))
    with ⟨p, hp, he⟩ | he
  · rcases h.pc p with hu | ⟨c, d, hc', hd, haddr, hbase⟩
    · exact absurd (hp.symm.trans hu) (site_ne_unused .pc hc (by decide) hi)
    · obtain ⟨-, rfl, -, hcat⟩ :=
        site_inj hc' (by decide) (hlt c d) hc (by decide) hi (haddr.symm.trans hp)
      exact ⟨d, hd, by rw [he, hbase], hcat⟩
  · exact ⟨q.index.toNat, q.index.isLt, by rw [he, (paPools_table sizes hc _).1], hq⟩

include hlt h hq in
/-- The records of the page root never have the address searched for. -/
theorem pd_search :
    (q.pd (paPools sizes) s).base = frameOf .pd q.ctxtId.toNat q.index.toNat ∧
      (q.pd (paPools sizes) s).found = false ∧
      (q.pd (paPools sizes) s).table.addr =
        Function.update s.pr.addr (q.ctxtId.toNat, q.index.toNat) q.pcAddr := by
  have hc : q.ctxtId.toNat < 256 := q.ctxtId.isLt
  obtain ⟨d, hd, hbase, -⟩ := pr_base sizes hlt h hq
  have haddr : q.prAddr (paPools sizes) s =
      site .pr q.ctxtId.toNat d (prIndex q.size.val.toNat q.va) := by
    rw [MmuPage.prAddr, hbase]
    rfl
  rw [MmuPage.pd, haddr]
  rcases enter_cases s.pr q.ctxtId.toNat q.index.toNat
    (site .pr q.ctxtId.toNat d (prIndex q.size.val.toNat q.va)) q.pcAddr
    (paPools sizes q.ctxtId.toNat (q.index.toNat * 4 + 1)) with ⟨p, hp, -⟩ | he
  · rcases h.pr p with hu | ⟨c, i, hc', hi, ha⟩
    · exact absurd (hp.symm.trans hu) (site_ne_unused .pr hc hd (prIndex_lt _ _))
    · have hl := (site_inj hc' (by decide) hi hc hd (prIndex_lt _ _) (ha.symm.trans hp)).1
      cases hl
  · rw [he, (paPools_table sizes hc _).2.1]
    exact ⟨rfl, rfl, rfl⟩

include hlt h hq in
theorem pdAddr_eq : q.pdAddr (paPools sizes) s =
    site .pd q.ctxtId.toNat q.index.toNat (pdIndex q.size.val.toNat q.va) := by
  rw [MmuPage.pdAddr, (pd_search sizes hlt h hq).1]
  rfl

include hlt h hq in
theorem pt_base : ∃ d < 256, (q.pt (paPools sizes) s).base = frameOf .pt q.ctxtId.toNat d ∧
    cat q.ctxtId.toNat d = pcIndex q.va := by
  have hc : q.ctxtId.toNat < 256 := q.ctxtId.isLt
  have hd : q.index.toNat < 256 := q.index.isLt
  have hi := pdIndex_lt q.size.val.toNat q.va
  rw [MmuPage.pt, pdAddr_eq sizes hlt h hq]
  rcases enter_cases s.pd q.ctxtId.toNat q.index.toNat
    (site .pd q.ctxtId.toNat q.index.toNat (pdIndex q.size.val.toNat q.va))
    (site .pd q.ctxtId.toNat q.index.toNat (pdIndex q.size.val.toNat q.va))
    (paPools sizes q.ctxtId.toNat (q.index.toNat * 4 + 2)) with ⟨p, hp, he⟩ | he
  · rcases h.pd p with hu | ⟨c, d, d', i, hc', hd', hd'', hi', haddr, hbase, hcat⟩
    · exact absurd (hp.symm.trans hu) (site_ne_unused .pd hc hd hi)
    · obtain ⟨-, rfl, hdd, -⟩ := site_inj hc' hd' hi' hc hd hi (haddr.symm.trans hp)
      obtain rfl := hdd.resolve_left (by decide)
      exact ⟨d', hd'', by rw [he, hbase], hcat.trans hq⟩
  · exact ⟨q.index.toNat, hd, by rw [he, (paPools_table sizes hc _).2.2], hq⟩

include hlt h hq in
/-- The entries of a page are behind its catalogue entry. -/
theorem entries_behind {a : U64} (ha : a ∈ q.entries (paPools sizes) s) :
    Behind cat q.ctxtId.toNat (pcIndex q.va) a := by
  obtain ⟨d₁, hd₁, hpr, hcat₁⟩ := pr_base sizes hlt h hq
  obtain ⟨d₃, hd₃, hpt, hcat₃⟩ := pt_base sizes hlt h hq
  have hprAddr : Behind cat q.ctxtId.toNat (pcIndex q.va) (q.prAddr (paPools sizes) s) := by
    rw [MmuPage.prAddr, hpr]
    exact .table (l := .pr) (by decide) hd₁ (prIndex_lt _ _) hcat₁
  have hptAddr : Behind cat q.ctxtId.toNat (pcIndex q.va) (q.ptAddr (paPools sizes) s) := by
    rw [MmuPage.ptAddr, hpt]
    exact .table (l := .pt) (by decide) hd₃ (ptIndex_lt _ _) hcat₃
  have hpcAddr : Behind cat q.ctxtId.toNat (pcIndex q.va) q.pcAddr := by
    rw [pcAddr_eq]
    exact .pc
  have hpdAddr : Behind cat q.ctxtId.toNat (pcIndex q.va) (q.pdAddr (paPools sizes) s) := by
    rw [pdAddr_eq sizes hlt h hq]
    exact .table (by decide) q.index.isLt (pdIndex_lt _ _) hq
  rw [MmuPage.entries, List.cons_append, List.mem_cons, List.mem_append] at ha
  rcases ha with ha | ha | ha
  · exact ha.symm ▸ hpcAddr
  · by_cases hs : q.size.val.toNat < 5
    · rw [if_pos hs, List.mem_singleton] at ha
      exact ha.symm ▸ hprAddr
    · rw [if_neg hs] at ha
      exact absurd ha List.not_mem_nil
  · rcases List.mem_pair.mp ha with ha | ha
    · exact ha.symm ▸ hpdAddr
    · exact ha.symm ▸ hptAddr

end Searches

/-- What an entry of a table behind catalogue entry `x` leads to. -/
def LeadsTo (cat : Nat → Nat → U64) (c : Nat) (x e : U64) : TableLevel → Prop
  | .pc => ∃ d < 256, cat c d = x ∧ (entryFlag e = 0 ∧ entryBase e = frameOf .pr c d ∨
      entryFlag e ≠ 0 ∧ entryBase e = frameOf .pd c d)
  | .pr => ∃ d < 256, cat c d = x ∧ entryBase e = frameOf .pd c d
  | .pd => ∃ d < 256, cat c d = x ∧ entryBase e = frameOf .pt c d
  | .pt => True

theorem LeadsOn.of_site {l : TableLevel} {d : Nat} {i e : U64} (hlt : ∀ c d, (cat c d).toNat < 512)
    (hc : c < 256) (hd : d < 256) (hi : i.toNat < 512) (h : LeadsOn cat (site l c d i) e) :
    LeadsTo cat c (if l = .pc then i else cat c d) e l := by
  generalize ha : site l c d i = a at h
  cases h with
  | @pc c' d' _ hc' hd' he =>
      obtain ⟨rfl, rfl, -, rfl⟩ := site_inj hc hd hi hc' (by decide) (hlt c' d') ha
      exact ⟨d', hd', rfl, he⟩
  | @pr c' _ d' _ _ hc' hd hi' hd' hcat he =>
      obtain ⟨rfl, rfl, hdd, -⟩ := site_inj hc (by assumption) hi hc' hd hi' ha
      obtain rfl := hdd.resolve_left (by decide)
      exact ⟨d', hd', hcat, he⟩
  | @pd c' _ d' _ _ hc' hd hi' hd' hcat he =>
      obtain ⟨rfl, rfl, hdd, -⟩ := site_inj hc (by assumption) hi hc' hd hi' ha
      obtain rfl := hdd.resolve_left (by decide)
      exact ⟨d', hd', hcat, he⟩
  | pt hc' hd' hi' =>
      obtain ⟨rfl, -⟩ := site_inj hc hd hi hc' hd' hi' ha
      trivial

section Walks

variable (hlt : ∀ c d, (cat c d).toNat < 512) (h : ByCatalogue cat s)

include hlt h in
/-- A valid entry of a table leads on behind the same catalogue entry. -/
theorem leadsTo_of_readValid {l : TableLevel} {d : Nat} {i e : U64} (hc : c < 256) (hd : d < 256)
    (hi : i.toNat < 512) (he : readValid s.mem (site l c d i) = some e) :
    LeadsTo cat c (if l = .pc then i else cat c d) e l :=
  (h.mem _ e (mem_of_readValid he)).of_site hlt hc hd hi

include hlt h in
/-- The entries that a walk reads are behind its catalogue entry. -/
theorem reads_behind (q : MmuPage) {a : U64} (ha : a ∈ q.reads s.mem) :
    Behind cat q.ctxtId.toNat (pcIndex q.va) a := by
  have hc : q.ctxtId.toNat < 256 := q.ctxtId.isLt
  -- from a page directory on
  have hrest {d : Nat} (hd : d < 256) (hcat : cat q.ctxtId.toNat d = pcIndex q.va)
      (ha : a ∈ (Chain.look (entryAddr (frameOf .pd q.ctxtId.toNat d)
          (pdIndex q.size.val.toNat q.va)) fun pd =>
        .look (entryAddr (entryBase pd) (ptIndex q.size.val.toNat q.va)) fun pt =>
          .done (entryBase pt)).keys (readValid s.mem)) :
      Behind cat q.ctxtId.toNat (pcIndex q.va) a := by
    rw [Chain.mem_keys_look] at ha
    rcases ha with ha | ⟨pd, hpd, ha⟩
    · exact ha.symm ▸ .table (l := .pd) (by decide) hd (pdIndex_lt _ _) hcat
    · obtain ⟨d', hd', hcat', hbase⟩ :=
        leadsTo_of_readValid hlt h (l := .pd) hc hd (pdIndex_lt _ _) hpd
      rw [Chain.mem_keys_look, hbase] at ha
      rcases ha with ha | ⟨pt, -, ha⟩
      · exact ha.symm ▸ .table (l := .pt) (by decide) hd' (ptIndex_lt _ _) (hcat'.trans hcat)
      · exact absurd ha List.not_mem_nil
  have hroot : entryAddr q.root (pcIndex q.va) = site .pc q.ctxtId.toNat 0 (pcIndex q.va) :=
    pcAddr_eq q
  rw [MmuPage.reads, MmuPage.chain, Chain.mem_keys_look, hroot] at ha
  rcases ha with ha | ⟨pc, hpc, ha⟩
  · exact ha.symm ▸ .pc
  · obtain ⟨d, hd, hcat, hbase⟩ :=
      leadsTo_of_readValid hlt h (l := .pc) hc (by decide) (pcIndex_lt _) hpc
    rcases hbase with ⟨hflag, hbase⟩ | ⟨hflag, hbase⟩
    · rw [if_pos hflag, Chain.mem_keys_look, hbase] at ha
      rcases ha with ha | ⟨pr, hpr, ha⟩
      · exact ha.symm ▸ .table (l := .pr) (by decide) hd (prIndex_lt _ _) hcat
      · obtain ⟨d', hd', hcat', hbase'⟩ :=
          leadsTo_of_readValid hlt h (l := .pr) hc hd (prIndex_lt _ _) hpr
        rw [hbase'] at ha
        exact hrest hd' (hcat'.trans hcat) ha
    · rw [if_neg hflag, hbase] at ha
      exact hrest hd hcat ha

end Walks

/-- The tables before any page. -/
theorem byCatalogue_fresh (cat : Nat → Nat → U64) {s : PageTables}
    (hpc : ∀ p, s.pc.addr p = unusedAddr) (hpr : ∀ p, s.pr.addr p = unusedAddr)
    (hpd : ∀ p, s.pd.addr p = unusedAddr) (hmem : ∀ a, s.mem a = none) : ByCatalogue cat s :=
  ⟨fun p => .inl (hpc p), fun p => .inl (hpr p), fun p => .inl (hpd p), fun a e he => by
    rw [hmem a] at he
    contradiction⟩

/-- **A page** that lies behind the catalogue entry of its pool index is mapped. -/
theorem ByCatalogue.gen_one (hlt : ∀ c d, (cat c d).toNat < 512) (h : ByCatalogue cat s)
    (hq : q.BehindCat cat) : ByCatalogue cat (q.gen (paPools sizes) 1 s) := by
  have hc : q.ctxtId.toNat < 256 := q.ctxtId.isLt
  have hd : q.index.toNat < 256 := q.index.isLt
  obtain ⟨hpr, hpd, hpt⟩ := paPools_table sizes hc q.index.toNat
  obtain ⟨d₁, hd₁, hprBase, hcat₁⟩ := pr_base sizes hlt h hq
  obtain ⟨hpdBase, -, -⟩ := pd_search sizes hlt h hq
  obtain ⟨d₃, hd₃, hptBase, hcat₃⟩ := pt_base sizes hlt h hq
  have hi := pcIndex_lt q.va
  have hcat : cat q.ctxtId.toNat q.index.toNat = pcIndex q.va := hq
  have hone : BitVec.zeroExtend 64 (1 : BitVec 8) = 1 := rfl
  refine ⟨?_, ?_, ?_, ?_⟩
  · refine enter_forall (R := fun a b => a = unusedAddr ∨ ∃ c d, c < 256 ∧ d < 256 ∧
      a = site .pc c 0 (cat c d) ∧ b = frameOf .pr c d) h.pc (.inr ?_) _ _ _
    exact ⟨_, _, hc, hd, (pcAddr_eq q).trans (by rw [hcat]), hpr⟩
  · refine enter_forall (R := fun a _ => a = unusedAddr ∨ ∃ c i, c < 256 ∧ i.toNat < 512 ∧
      a = site .pc c 0 i) h.pr (.inr ?_) _ _ _
    exact ⟨_, _, hc, hi, pcAddr_eq q⟩
  · refine enter_forall (R := fun a b => a = unusedAddr ∨ ∃ c d d' i, c < 256 ∧ d < 256 ∧
      d' < 256 ∧ i.toNat < 512 ∧ a = site .pd c d i ∧ b = frameOf .pt c d' ∧ cat c d' = cat c d)
      h.pd (.inr ?_) _ _ _
    exact ⟨_, _, _, _, hc, hd, hd, pdIndex_lt _ _, pdAddr_eq sizes hlt h hq, hpt, rfl⟩
  · rw [gen_mem, hone, MmuPage.ptAddr, hptBase, pdAddr_eq sizes hlt h hq, MmuPage.prAddr, hprBase,
      hpdBase, pcAddr_eq, ← hcat]
    refine storeIf_forall (storeIf_forall (storeIf_forall (storeIf_forall h.mem _ ?_) _ ?_) _ ?_)
      _ ?_ <;> intro _
    · by_cases hs : q.size.val.toNat < 5
      · obtain ⟨hflag, hbase⟩ := pcEntry_small hs hc hd₁
        rw [pcEntry, if_neg (by omega)] at hflag hbase
        rw [if_neg (by omega), hcat, ← hcat₁]
        exact .pc hc hd₁ (.inl ⟨hflag, hbase⟩)
      · obtain ⟨hflag, hbase⟩ := pcEntry_large hs hc hd
        rw [pcEntry, if_pos (by omega)] at hflag hbase
        rw [if_pos (by omega)]
        exact .pc hc hd (.inr ⟨by rw [frameOf, hflag]; decide, hbase⟩)
    · exact .pr hc hd₁ (prIndex_lt _ _) hd (hcat.trans hcat₁.symm) (prEntry_fields hc hd).1
    · exact .pd hc hd (pdIndex_lt _ _) hd₃ (hcat₃.trans hcat.symm) (pdEntry_fields q.size hc hd₃).1
    · exact .pt hc hd₃ (ptIndex_lt _ _)

end ByCatalogue

/-! ## a set of pages -/

/-- The records cleared as by `setup_page_desc`, over what an earlier call left in them. -/
def freshTables (old : AssTable × AssTable × AssTable × AssTable) : PageTables where
  pc := { old.1 with addr := fun _ => unusedAddr }
  pr := { old.2.1 with addr := fun _ => unusedAddr }
  pd := { old.2.2.1 with addr := fun _ => unusedAddr }
  pt := { old.2.2.2 with addr := fun _ => unusedAddr }
  mem := fun _ => none

/-- `gen_page_desc` for pages one after the other. -/
def mapPages (pa : Nat → Nat → U64) (pages : List MmuPage) (s : PageTables) : PageTables :=
  pages.foldl (fun s q => q.gen pa 1 s) s

/-- Unmapping a page takes its own translation away and no other page's. -/
def UnmapFrames (pa : Nat → Nat → U64) (pages : List MmuPage) (s : PageTables) (q : MmuPage) :
    Prop :=
  q.translate (q.gen pa 0 s).mem = none ∧
    ∀ q' ∈ pages, q' ≠ q → q'.translate (q.gen pa 0 s).mem = q'.translate s.mem

/-- The walk of a page reads an entry of another one. -/
def SharesEntry (pa : Nat → Nat → U64) (s : PageTables) (q q' : MmuPage) : Prop :=
  ∃ a ∈ q'.reads s.mem, a ∈ q.entries pa s

/-- Both are behind one entry of one page catalogue. -/
def SharesCatalogueEntry (q q' : MmuPage) : Prop :=
  q'.ctxtId = q.ctxtId ∧ pcIndex q'.va = pcIndex q.va

/-- The pages of a pool index are behind one catalogue entry. -/
def OneCatalogueEntry (pages : List MmuPage) : Prop :=
  ∀ q ∈ pages, ∀ q' ∈ pages, q.ctxtId = q'.ctxtId → q.index = q'.index →
    pcIndex q.va = pcIndex q'.va

/-- The catalogue entry of a pool index. -/
def catalogueOf (pages : List MmuPage) (c d : Nat) : U64 :=
  ((pages.find? fun q => q.ctxtId.toNat = c ∧ q.index.toNat = d).map (pcIndex ·.va)).getD 0

theorem catalogueOf_lt (pages : List MmuPage) (c d : Nat) : (catalogueOf pages c d).toNat < 512 := by
  rw [catalogueOf]
  cases pages.find? fun q => q.ctxtId.toNat = c ∧ q.index.toNat = d with
  | none => decide
  | some q => exact pcIndex_lt q.va

theorem behindCat_catalogueOf {pages : List MmuPage} (hone : OneCatalogueEntry pages) {q : MmuPage}
    (hq : q ∈ pages) : q.BehindCat (catalogueOf pages) := by
  have hsome : (pages.find? fun q' => q'.ctxtId.toNat = q.ctxtId.toNat ∧
      q'.index.toNat = q.index.toNat).isSome :=
    List.find?_isSome.mpr ⟨q, hq, by simp⟩
  obtain ⟨q', hq'⟩ := Option.isSome_iff_exists.mp hsome
  have heq := List.find?_some hq'
  simp only [decide_eq_true_eq] at heq
  rw [MmuPage.BehindCat, catalogueOf, hq']
  exact hone q' (List.mem_of_find?_eq_some hq') q hq (BitVec.eq_of_toNat_eq heq.1)
    (BitVec.eq_of_toNat_eq heq.2)

/-- **The run**: pages are mapped one after the other. -/
theorem ByCatalogue.mapPages {cat : Nat → Nat → U64} (hlt : ∀ c d, (cat c d).toNat < 512)
    (sizes : Nat → Nat → PageSize) {pages : List MmuPage} {s : PageTables} (h : ByCatalogue cat s)
    (hpages : ∀ q ∈ pages, q.BehindCat cat) :
    ByCatalogue cat (mapPages (paPools sizes) pages s) := by
  induction pages generalizing s with
  | nil => exact h
  | cons q pages ih =>
      exact ih (h.gen_one sizes hlt (hpages q List.mem_cons_self)) fun q' hq' =>
        hpages q' (List.mem_cons_of_mem q hq')

/-- For pages of which each pool index has one catalogue entry, an entry is shared exactly
when that of the page catalogue is. -/
theorem shares_iff {cat : Nat → Nat → U64} (hlt : ∀ c d, (cat c d).toNat < 512)
    (sizes : Nat → Nat → PageSize) {s : PageTables} (h : ByCatalogue cat s) {q : MmuPage}
    (hq : q.BehindCat cat) (q' : MmuPage) :
    SharesEntry (paPools sizes) s q q' ↔ SharesCatalogueEntry q q' := by
  constructor
  · rintro ⟨a, hread, hentry⟩
    obtain ⟨hctxt, hindex⟩ := (reads_behind hlt h q' hread).unique q'.ctxtId.isLt (pcIndex_lt _)
      q.ctxtId.isLt (pcIndex_lt _) (entries_behind sizes hlt h hq hentry)
    exact ⟨BitVec.eq_of_toNat_eq hctxt, hindex⟩
  · rintro ⟨hctxt, hindex⟩
    have haddr : q'.pcAddr = q.pcAddr := by
      rw [MmuPage.pcAddr, MmuPage.pcAddr, MmuPage.root, MmuPage.root, hctxt, hindex]
    exact ⟨q.pcAddr, haddr ▸ List.mem_cons_self, List.mem_append_left _ List.mem_cons_self⟩

/-- Unmapping spares the other pages exactly when none that translates shares an entry. -/
theorem unmapFrames_iff (pa : Nat → Nat → U64) (pages : List MmuPage) (s : PageTables) (q : MmuPage) :
    UnmapFrames pa pages s q ↔
      ∀ q' ∈ pages, q' ≠ q → q'.translate s.mem ≠ none → ¬SharesEntry pa s q q' := by
  constructor
  · rintro ⟨-, h⟩ q' hq' hne hsome ⟨a, hread, hentry⟩
    exact ((translate_unmap_iff pa q s q').mp (h q' hq' hne)).elim hsome fun hno =>
      hno a hread hentry
  · intro h
    refine ⟨translate_unmap_self pa q s, fun q' hq' hne => ?_⟩
    rw [translate_unmap_iff]
    by_cases hnone : q'.translate s.mem = none
    · exact .inl hnone
    · exact .inr fun a hread hentry => h q' hq' hne hnone ⟨a, hread, hentry⟩

/-- **Unmapping** one of the pages mapped spares the others exactly when none that translates
shares an entry with it; with one catalogue entry for each pool index, exactly when none that
translates is behind its catalogue entry. -/
theorem unmap_frames_iff (sizes : Nat → Nat → PageSize) (pages : List MmuPage)
    (old : AssTable × AssTable × AssTable × AssTable) {q : MmuPage} (hq : q ∈ pages) :
    let s := mapPages (paPools sizes) pages (freshTables old)
    (UnmapFrames (paPools sizes) pages s q ↔ ∀ q' ∈ pages, q' ≠ q → q'.translate s.mem ≠ none →
      ¬SharesEntry (paPools sizes) s q q') ∧
    (OneCatalogueEntry pages →
      (UnmapFrames (paPools sizes) pages s q ↔ ∀ q' ∈ pages, q' ≠ q →
        q'.translate s.mem ≠ none → ¬SharesCatalogueEntry q q')) := by
  refine ⟨unmapFrames_iff _ _ _ _, fun hone => ?_⟩
  have hlt := catalogueOf_lt pages
  have hcat : ByCatalogue (catalogueOf pages) (mapPages (paPools sizes) pages (freshTables old)) :=
    (byCatalogue_fresh _ (fun _ => rfl) (fun _ => rfl) (fun _ => rfl) fun _ => rfl).mapPages hlt
      sizes fun q' hq' => behindCat_catalogueOf hone hq'
  rw [unmapFrames_iff]
  refine forall₄_congr fun q' _ _ _ => not_congr ?_
  exact shares_iff hlt sizes hcat (behindCat_catalogueOf hone hq) q'

/-- Two pages of 4 KiB, 1 GiB apart. -/
def neighbours : List MmuPage := [⟨0, 0, 0, .k4⟩, ⟨0x40000, 0, 1, .k4⟩]

/-- The tables of these two. -/
theorem unmap_frames_iff_neighbours :
    let s := mapPages (paPools fun _ _ => .k4) neighbours (freshTables clearRecords)
    (UnmapFrames (paPools fun _ _ => .k4) neighbours s ⟨0, 0, 0, .k4⟩ ↔
      ∀ q' ∈ neighbours, q' ≠ ⟨0, 0, 0, .k4⟩ → q'.translate s.mem ≠ none →
        ¬SharesEntry (paPools fun _ _ => .k4) s ⟨0, 0, 0, .k4⟩ q') ∧
    (OneCatalogueEntry neighbours →
      (UnmapFrames (paPools fun _ _ => .k4) neighbours s ⟨0, 0, 0, .k4⟩ ↔
        ∀ q' ∈ neighbours, q' ≠ ⟨0, 0, 0, .k4⟩ → q'.translate s.mem ≠ none →
          ¬SharesCatalogueEntry ⟨0, 0, 0, .k4⟩ q')) :=
  unmap_frames_iff (fun _ _ => .k4) neighbours clearRecords (by decide)

/-- The second is translated to the second data page, and to none when the first one has been
unmapped. -/
theorem unmap_drops_neighbour :
    let s := mapPages (paPools fun _ _ => .k4) neighbours (freshTables clearRecords)
    (MmuPage.mk 0x40000 0 1 .k4).translate s.mem = some 0x400001 ∧
      ¬UnmapFrames (paPools fun _ _ => .k4) neighbours s ⟨0, 0, 0, .k4⟩ := by
  have hbefore : (MmuPage.mk 0x40000 0 1 .k4).translate
      (mapPages (paPools fun _ _ => .k4) neighbours (freshTables clearRecords)).mem =
        some 0x400001 := by decide
  have hafter : (MmuPage.mk 0x40000 0 1 .k4).translate
      ((MmuPage.mk 0 0 0 .k4).gen (paPools fun _ _ => .k4) 0
        (mapPages (paPools fun _ _ => .k4) neighbours (freshTables clearRecords))).mem = none := by
    decide
  refine ⟨hbefore, fun h => ?_⟩
  have hkept := h.2 ⟨0x40000, 0, 1, .k4⟩ (by decide) (by decide)
  rw [hbefore, hafter] at hkept
  contradiction

end MtEmu
