/-
Reading what the switch has sent.

The bytes on the wire are those the switch has sent and sc has not read yet.
`Reads` is a turn of the main loop while sc is busy: a read delivers some of these
bytes or finds none of them there yet.

* `Reads.turn` — what such a turn does on views, by cases;
* `Conf.Shows.can_read` — there is such a turn;
* `reads_bytes` — the wire can be read byte by byte.
-/
import Swh.CoreView

namespace Swh

/-- Only the init machine has flags to clear. -/
theorem Program.settle_of_ne_init {g : Program} (h : g.which ≠ .init) : g.settle = g := by
  rcases g with ⟨st, x⟩ | ⟨st, x⟩ | st
  · exact absurd rfl h
  · rfl
  · rfl

/-- There is nothing to react to once the flags are cleared. -/
theorem Program.reaction_of_settled {g : Program} (h : g.settle = g) : g.reaction = [] := by
  rw [← h]
  cases g <;> rfl

/-- A call that has data consumes what it can of it. -/
theorem View.operates_data {v : View} {r : ReadResult} {o : Option (List UInt8)} {g : Program}
    {rest : List UInt8} (hst : v.state = .busy) (hr : xread r = .ok o) (hd : v.data o ≠ [])
    (hfeed : v.prog.feed (v.data o) = .ok (g, rest)) (herr : g.error = false)
    (hset : v.prog.settle = v.prog) :
    ∃ b, v.Operates r (readEv o :: g.reaction)
      (.ok ({ v with nodataflag := false, rb := rest, prog := g.settle }, b)) ∧
      (b = false → rest = v.data o) := by
  -- `fsm_feed` consumes something, or sc asks for more
  by_cases hlt : rest.length < (v.data o).length
  · exact ⟨true, .fed hst hr hfeed hlt herr, nofun⟩
  · have hlen := le_antisymm (Program.feed_length_le hfeed) (by omega)
    obtain ⟨rfl, rfl⟩ := Program.feed_state_eq hfeed hlen
    rw [Program.reaction_of_settled hset, hset]
    exact ⟨false, .starved hst hr hd hfeed, fun _ => rfl⟩

namespace Core

/-- A turn of the loop while sc is busy, and what it leaves on the wire.  `selectfd`
returns when there is something to read. -/
inductive Reads : Conf × List UInt8 → List Ev → Conf × List UInt8 → Prop
  | piece {s k w} (bs : List UInt8) (hst : s.state = .busy) (hbs : bs ≠ [])
      (hfits : (ReadResult.bytes bs).Fits s) :
      Reads (⟨s, .loop k⟩, bs ++ w) (scOperate (.bytes bs) s).log
        (operated s (scOperate (.bytes bs) s).res, w)
  | dry {s w} (hst : s.state = .busy) :
      Reads (⟨s, .loop false⟩, w) (scOperate .eagain s).log
        (operated s (scOperate .eagain s).res, w)
  | wake {s w} (hw : w ≠ []) : Reads (⟨s, .select⟩, w) [] (⟨s, .loop true⟩, w)

/-- What a turn of the busy loop does, if the machine can read what there is. -/
inductive Turn (v : View) : Phase → List UInt8 → List Ev → View → Phase → List UInt8 → Prop
  | wake {w} (hw : w ≠ []) : Turn v .select w [] v (.loop true) w
  | data {k o g rest ph w} (hd : v.data o ≠ []) (hfeed : v.prog.feed (v.data o) = .ok (g, rest))
      (hph : ph = .loop false ∨ ph = .select ∧ rest = v.data o) :
      Turn v (.loop k) (o.getD [] ++ w) (readEv o :: g.reaction)
        { v with nodataflag := false, rb := rest, prog := g.settle } ph w
  | wait {k w} (hrb : v.rb = []) (hacc : v.prog.accepts = false) :
      Turn v (.loop k) w [.eagain] { v with nodataflag := true } .select w
  | ack {k w} (hrb : v.rb = []) (hacc : v.prog.accepts = true) (hwq : v.wq ≠ []) :
      Turn v (.loop k) w [.eagain, .eod v.prog.which 0 true]
        { v with prog := v.prog.eod, state := .writing } (.loop false) w
  | done {k w} (hrb : v.rb = []) (hacc : v.prog.accepts = true) (hwq : v.wq = []) :
      Turn v (.loop k) w [.eagain, .eod v.prog.which 0 true, .ready]
        { v with
          prog := v.prog.eod, state := .ready, out := untilNul v.prog.eod.outText
          ps1 := untilNul v.prog.eod.ps1Text } (.loop false) w

variable {c c' : Conf} {v v' : View} {ph : Phase} {l : List Ev} {w w' : List UInt8}

theorem scBusy_of_busy {s : Sc} (h : s.state = .busy) : scBusy s = true :=
  scBusy_iff.mpr (by rw [h]; exact ⟨nofun, nofun⟩)

/-- These turns are steps of the main loop. -/
theorem Reads.step (h : Reads (c, w) l (c', w')) : Step c l c' := by
  cases h with
  | piece bs hst hbs hfits => exact .operate _ (scBusy_of_busy hst) hfits fun _ => nofun
  | dry hst => exact .operate _ (scBusy_of_busy hst) nofun nofun
  | wake hw => exact .wake

/-- Either the loop wakes up, or a read has the result `o` and sc does what it does. -/
theorem Reads.cases (hc : c.Shows (v, ph)) (h : Reads (c, w) l (c', w')) :
    (ph = .select ∧ l = [] ∧ w' = w ∧ w ≠ [] ∧ c'.Shows (v, .loop true)) ∨
      ∃ k r o, ph = .loop k ∧ v.state = .busy ∧ xread r = .ok o ∧ (k = true → o ≠ none) ∧
        w = o.getD [] ++ w' ∧ ∀ l' v' b, v.Operates r l' (.ok (v', b)) →
          l = l' ∧ c'.Shows (v', if b then .loop false else .select) := by
  obtain ⟨hshows, hph, hsane⟩ := hc
  dsimp only at hshows hph hsane
  subst hph
  cases h with
  | @piece s k _ bs hst hbs hfits =>
    obtain ⟨b, bs, rfl⟩ := List.exists_cons_of_ne_nil hbs
    have hbusy : v.state = .busy := hshows.state ▸ hst
    refine .inr ⟨k, .bytes (b :: bs), some (b :: bs), rfl, hbusy, rfl, fun _ => nofun, rfl, ?_⟩
    intro l' v' b' hop
    exact Conf.Shows.operated (w := k) ⟨hshows, rfl, hsane⟩ hfits hop
  | @dry s _ hst =>
    have hbusy : v.state = .busy := hshows.state ▸ hst
    refine .inr ⟨false, .eagain, none, rfl, hbusy, rfl, (fun hk => nomatch hk), rfl, ?_⟩
    intro l' v' b' hop
    exact Conf.Shows.operated (w := false) ⟨hshows, rfl, hsane⟩ (fits_eagain s) hop
  | @wake s _ hw => exact .inl ⟨rfl, rfl, rfl, hw, hshows, rfl, Moves.wake.sane hsane⟩

theorem Reads.busy (h : Reads (c, w) l (c', w')) (hc : c.Shows (v, ph)) : v.state = .busy := by
  rcases h.cases hc with ⟨rfl, -⟩ | ⟨k, r, o, rfl, hst, -⟩
  · exact hc.sane.select (.inl rfl)
  · exact hst

/-- A turn without data. -/
theorem Conf.Shows.dry (hc : c.Shows (v, .loop false)) (hst : v.state = .busy) {b : Bool}
    (hop : v.Operates .eagain l (.ok (v', b))) (w : List UInt8) :
    ∃ c', Reads (c, w) l (c', w) ∧ c'.Shows (v', if b then .loop false else .select) := by
  obtain ⟨s, ph⟩ := c
  obtain rfl : ph = .loop false := hc.2.1
  obtain ⟨hl, hc'⟩ := hc.operated (fits_eagain s) hop
  exact ⟨_, hl ▸ .dry (hc.1.state.trans hst), hc'⟩

/-- A turn that reads one byte, which there is always room for. -/
theorem Conf.Shows.byte {k b : Bool} {x : UInt8} (hc : c.Shows (v, .loop k))
    (hst : v.state = .busy) (hop : v.Operates (.bytes [x]) l (.ok (v', b))) (w : List UInt8) :
    ∃ c', Reads (c, x :: w) l (c', w) ∧ c'.Shows (v', if b then .loop false else .select) := by
  obtain ⟨s, ph⟩ := c
  obtain rfl : ph = .loop k := hc.2.1
  have hfits := fits_byte hc.1 x
  obtain ⟨hl, hc'⟩ := hc.operated hfits hop
  exact ⟨_, hl ▸ .piece (w := w) [x] (hc.1.state.trans hst) (by simp) hfits, hc'⟩

theorem Conf.Shows.wakes (hc : c.Shows (v, .select)) (hw : w ≠ []) :
    ∃ c', Reads (c, w) [] (c', w) ∧ c'.Shows (v, .loop true) := by
  obtain ⟨s, ph⟩ := c
  obtain rfl : ph = .select := hc.2.1
  exact ⟨_, .wake hw, hc.1, rfl, Moves.wake.sane hc.sane⟩

/-- While sc is busy it can go on, and it need not find the pipe empty as long as there
is something on the wire. -/
theorem Conf.Shows.can_read (hc : c.Shows (v, ph)) (hst : v.state = .busy)
    (hph : ph = .select ∨ ∃ k, ph = .loop k) (hawake : ph = .select ∨ ph = .loop true → w ≠ []) :
    ∃ l q, Reads (c, w) l q ∧ (.eagain ∈ l → w = []) := by
  rcases hph with rfl | ⟨k, rfl⟩
  · obtain ⟨c', hs, -⟩ := hc.wakes (hawake (.inl rfl))
    exact ⟨[], _, hs, fun hmem => by simp at hmem⟩
  · obtain ⟨s, ph⟩ := c
    obtain ⟨hshows, hph, -⟩ := hc
    obtain rfl : ph = .loop k := hph
    have hbusy : s.state = .busy := hshows.state.trans hst
    rcases w with _ | ⟨b, w⟩
    · cases k
      · exact ⟨_, _, .dry hbusy, fun _ => rfl⟩
      · exact absurd rfl (hawake (.inr rfl))
    · have hfits := fits_byte hshows b
      refine ⟨_, _, .piece [b] hbusy (by simp) hfits, fun hmem => ?_⟩
      obtain ⟨res, hop, -⟩ := scOperate_refines hshows hfits
      cases hop.eagain hmem

/-! ### Turns on views -/

/-- **The turns of the busy loop.** -/
theorem Reads.turn (hc : c.Shows (v, ph)) (hset : v.prog.settle = v.prog)
    (hfeeds : ∀ o w', w = o.getD [] ++ w' →
      ∃ g rest, v.prog.feed (v.data o) = .ok (g, rest) ∧ g.error = false)
    (h : Reads (c, w) l (c', w')) : ∃ v' ph', c'.Shows (v', ph') ∧ Turn v ph w l v' ph' w' := by
  rcases h.cases hc with ⟨rfl, rfl, rfl, hw, hc'⟩ | ⟨k, r, o, rfl, hst, hr, hk, rfl, hop⟩
  · exact ⟨v, _, hc', .wake hw⟩
  by_cases hd : v.data o = []
  · obtain ⟨hrb, rfl⟩ := View.data_eq_nil hr hd
    rcases hacc : v.prog.accepts with _ | _
    · -- a woken loop does not get here, so the flag is not set yet
      have hflag : v.nodataflag = false := hc.sane.not_flag
        (by rintro hk' rfl; exact hk hk' rfl) hr
      obtain ⟨rfl, hc'⟩ := hop _ _ _ (.wait hst hr hrb hacc hflag)
      exact ⟨_, _, hc', .wait hrb hacc⟩
    · by_cases hwq : v.wq = []
      · obtain ⟨rfl, hc'⟩ := hop _ _ _
          (.done hst hr hrb hacc hwq (hc.sane.out (by simp [hst])))
        exact ⟨_, _, hc', .done hrb hacc hwq⟩
      · obtain ⟨rfl, hc'⟩ := hop _ _ _ (.ack hst hr hrb hacc hwq)
        exact ⟨_, _, hc', .ack hrb hacc hwq⟩
  · obtain ⟨g, rest, hfeed, herr⟩ := hfeeds o w' rfl
    obtain ⟨b, hop', hb⟩ := View.operates_data hst hr hd hfeed herr hset
    obtain ⟨rfl, hc'⟩ := hop _ _ _ hop'
    refine ⟨_, _, hc', .data hd hfeed ?_⟩
    cases b
    · exact .inr ⟨rfl, hb rfl⟩
    · exact .inl rfl

/-! ### Byte by byte -/

/-- The next byte can be read, after the loop was woken if need be. -/
theorem Conf.Shows.read_byte (hc : c.Shows (v, ph)) (hst : v.state = .busy)
    (hph : ph = .select ∨ ∃ k, ph = .loop k) (hinit : v.prog.which ≠ .init) {x : UInt8}
    {g : Program} {r : List UInt8} (hfeed : v.prog.feed (v.rb ++ [x]) = .ok (g, r))
    (herr : g.error = false) (w : List UInt8) :
    ∃ c' ph', Runs Reads (c, x :: w) [.read [x]] (c', w) ∧
      c'.Shows ({ v with nodataflag := false, rb := r, prog := g }, ph') ∧
      (ph' = .loop false ∨ ph' = .select ∧ r ≠ []) := by
  have hgne : g.which ≠ .init := by rwa [Program.which_feed hfeed]
  obtain ⟨b, hop, hb⟩ := View.operates_data (r := .bytes [x]) (o := some [x]) hst rfl
    (by simp [View.data]) hfeed herr (Program.settle_of_ne_init hinit)
  rw [Program.settle_of_ne_init hgne,
    Program.reaction_of_settled (Program.settle_of_ne_init hgne)] at hop
  have hph' : (if b then Phase.loop false else .select) = .loop false ∨
      (if b then Phase.loop false else .select) = .select ∧ r ≠ [] := by
    cases b
    · exact .inr ⟨rfl, by rw [hb rfl]; simp [View.data]⟩
    · exact .inl rfl
  rcases hph with rfl | ⟨k, rfl⟩
  · obtain ⟨c₁, hs₁, hc₁⟩ := hc.wakes (List.cons_ne_nil x w)
    obtain ⟨c₂, hs₂, hc₂⟩ := hc₁.byte hst hop w
    exact ⟨c₂, _, (Runs.single hs₁).snoc hs₂, hc₂, hph'⟩
  · obtain ⟨c₂, hs₂, hc₂⟩ := hc.byte hst hop w
    exact ⟨c₂, _, .single hs₂, hc₂, hph'⟩

/-- What is logged when each byte comes with a read of its own. -/
def bytewise (bs : List UInt8) : List Ev := bs.map fun x => .read [x]

/-- What the machine can read to its last byte may arrive byte by byte. -/
theorem reads_bytes {bs : List UInt8} (hc : c.Shows (v, .loop false)) (hst : v.state = .busy)
    (hinit : v.prog.which ≠ .init) {g : Program} (hfeed : v.prog.feed (v.rb ++ bs) = .ok (g, []))
    (herr : g.error = false) (w : List UInt8) :
    ∃ c' n, Runs Reads (c, bs ++ w) (bytewise bs) (c', w) ∧
      c'.Shows ({ v with nodataflag := n, rb := [], prog := g }, .loop false) := by
  -- between two bytes the loop may also wait in `selectfd`, with a part of a token left over
  suffices h : ∀ c v ph, c.Shows (v, ph) → v.state = .busy →
      (ph = .loop false ∨ ph = .select ∧ v.rb ≠ []) → v.prog.which ≠ .init →
      v.prog.feed (v.rb ++ bs) = .ok (g, []) →
      ∃ c' n, Runs Reads (c, bs ++ w) (bytewise bs) (c', w) ∧
        c'.Shows ({ v with nodataflag := n, rb := [], prog := g }, .loop false) from
    h c v _ hc hst (.inl rfl) hinit hfeed
  clear hc hst hinit hfeed
  induction bs with
  | nil =>
    intro c v ph hc hst hph hinit hfeed
    rw [List.append_nil, Program.feed_more hc.sane.stuck] at hfeed
    simp only [Except.ok.injEq, Prod.mk.injEq] at hfeed
    obtain ⟨rfl, hrb⟩ := hfeed
    rcases hph with rfl | ⟨-, hne⟩
    · exact ⟨c, v.nodataflag, .refl _, by rw [← hrb]; exact hc⟩
    · exact absurd hrb hne
  | cons x bs ih =>
    intro c v ph hc hst hph hinit hfeed
    rw [List.append_cons] at hfeed
    obtain ⟨g₁, r₁, hfeed₁, herr₁, hrest⟩ := Program.feed_prefix hfeed herr
    have hph' : ph = .select ∨ ∃ k, ph = .loop k := by
      rcases hph with rfl | ⟨rfl, -⟩
      · exact .inr ⟨false, rfl⟩
      · exact .inl rfl
    obtain ⟨c₁, ph₁, hrun₁, hc₁, hph₁⟩ :=
      hc.read_byte hst hph' hinit hfeed₁ herr₁ (bs ++ w)
    obtain ⟨c₂, n, hrun₂, hc₂⟩ := ih c₁ _ ph₁ hc₁ hst hph₁
      (by rwa [Program.which_feed hfeed₁]) hrest
    exact ⟨c₂, n, hrun₁.trans hrun₂, hc₂⟩

/-! ### Progress -/

/-- How far the loop is from its next read. -/
def rank : Phase → ScState → ℕ
  | .loop false, .busy => 3
  | .select, _ => 2
  | .loop _, _ => 1
  | _, _ => 0

theorem rank_le (ph : Phase) (st : ScState) : rank ph st ≤ 3 := by
  rw [rank.eq_def]
  split <;> omega

theorem rank_loop (k : Bool) {st : ScState} (h : st ≠ .busy) : rank (.loop k) st = 1 := by
  rw [rank.eq_def]
  cases k <;> cases st <;> first | rfl | exact absurd rfl h

/-- A call that finds nothing does not leave the loop as it was. -/
theorem rank_dry {s : Sc} {k : Bool} (hc : Conf.Shows ⟨s, .loop k⟩ (v, .loop k))
    (hst : s.state = .busy) : rank (operated s (scOperate .eagain s).res).phase
      (operated s (scOperate .eagain s).res).sc.state < 3 := by
  obtain ⟨res, hop, hag⟩ := scOperate_refines hc.1 (fits_eagain s)
  have hbusy : v.state = .busy := hc.1.state ▸ hst
  generalize (scOperate .eagain s).res = x at hag ⊢
  generalize (scOperate .eagain s).log = l at hop
  cases hag with
  | error e => exact Nat.succ_pos 2
  | @ok a b hab =>
    obtain ⟨s', b'⟩ := a
    obtain ⟨v', b⟩ := b
    obtain ⟨hs', hb⟩ := hab
    dsimp only at hs' hb
    subst hb
    cases hop with
    | write hst' => rw [hbusy] at hst'; cases hst'
    | starved => exact Nat.lt_succ_self 2
    | fed hst' hr hfeed hlt =>
      cases hr
      -- what is left over has no complete token
      rw [View.data, Option.getD_none, List.append_nil, Program.feed_more hc.sane.stuck] at hfeed
      cases hfeed
      rw [View.data, Option.getD_none, List.append_nil] at hlt
      exact absurd hlt (lt_irrefl _)
    | wait => exact Nat.lt_succ_self 2
    | ack =>
      show rank (.loop false) s'.state < 3
      rw [show s'.state = .writing from hs'.state]
      decide
    | done =>
      show rank (.loop false) s'.state < 3
      rw [show s'.state = .ready from hs'.state]
      decide

/-- Each turn makes progress. -/
theorem Reads.lt (hc : c.Shows (v, ph)) (h : Reads (c, w) l (c', w')) :
    3 * w'.length + rank c'.phase c'.sc.state < 3 * w.length + rank c.phase c.sc.state := by
  obtain ⟨hshows, hph, hsane⟩ := hc
  dsimp only at hshows hph hsane
  subst hph
  cases h with
  -- a byte on the wire outweighs all the turns until the next read
  | @piece s k _ bs hst hbs hfits =>
    have hpos := List.length_pos_iff.mpr hbs
    have hrank : 1 ≤ rank (.loop k) s.state := by
      rw [hst]
      cases k <;> decide
    have := rank_le (operated s (scOperate (.bytes bs) s).res).phase
      (operated s (scOperate (.bytes bs) s).res).sc.state
    rw [List.length_append]
    dsimp only
    omega
  | @dry s _ hst =>
    have := rank_dry (v := v) ⟨hshows, rfl, hsane⟩ hst
    have hrank : rank (.loop false) s.state = 3 := by rw [hst]; rfl
    dsimp only
    omega
  | @wake s _ hw =>
    have hst : s.state = .busy := hshows.state.trans (hsane.select (.inl rfl))
    have hrank : rank (.loop true) s.state < rank .select s.state := by
      rw [hst]
      decide
    dsimp only
    omega

end Core

end Swh
