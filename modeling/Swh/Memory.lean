/-
How much memory sc takes.

The buffers of sc never shrink, so what counts is what makes them grow.  A call either
leaves the sizes alone or moves a buffer to a block that is less than twice as large
as what has to go in; only the read buffer is made exactly twice as large.

* `scOperate_sizes`, `scWrite_sizes` — what one call does to the sizes;
* `memory` — in every run, a buffer of sc that is larger than in the beginning is less
  than twice as large as one line or one text with its NUL, or at most twice as large as
  one unfinished escape sequence.
-/
import Swh.Display
import Swh.Dialogue
import Swh.Growbuf

namespace Swh

/-- The buffer was moved to a block less than twice as large as what it holds, NUL
included, for which there was no room, or not moved at all. -/
def Buf.Moved (b b' : Buf) : Prop :=
  b'.mem.size = b.mem.size ∨ b.mem.size < b'.cnt + 1 ∧ b'.mem.size < 2 * (b'.cnt + 1)

theorem Buf.size_grow (b : Buf) (minsz : ℕ) : (b.grow minsz).mem.size = b.mem.size ∨
    b.mem.size < minsz ∧ (b.grow minsz).mem.size < 2 * minsz := by
  show (growbuf b.mem minsz).size = _ ∨ _
  rw [show (b.grow minsz).mem.size = (growbuf b.mem minsz).size from rfl, size_growbuf]
  by_cases hlt : b.mem.size < minsz
  · exact .inr ⟨hlt, growSize_lt _ _ _ hlt⟩
  · exact .inl (growSize_of_le _ (Nat.not_lt.mp hlt))

/-- A full read buffer is made twice as large. -/
theorem size_readRoom (s : Sc) : (readRoom s).mem.size =
    if s.readbuf.mem.size ≤ s.readbuf.cnt then s.readbuf.mem.size * 2
    else s.readbuf.mem.size := by
  have hpos := s.readbuf.mem.size_pos
  rw [readRoom]
  by_cases hfull : s.readbuf.mem.size ≤ s.readbuf.cnt
  · rw [if_pos (Nat.sub_eq_zero_of_le hfull), if_pos hfull]
    show (growbuf s.readbuf.mem _).size = _
    rw [size_growbuf, growSize_of_lt _ (by omega), growSize_of_le _ le_rfl]
  · rw [if_neg (by omega), if_neg hfull]

/-- The buffers of `s'` are those of `s`, but perhaps for what is in the read and the
write buffer. -/
structure Sc.Keeps (s s' : Sc) : Prop where
  readbuf : s'.readbuf.mem.size = s.readbuf.mem.size
  writebuf : s'.writebuf.mem.size = s.writebuf.mem.size
  outbuf : s'.outbuf = s.outbuf
  ps1buf : s'.ps1buf = s.ps1buf

namespace Sc.Keeps

variable {s s' s'' : Sc}

theorem refl (s : Sc) : s.Keeps s := ⟨rfl, rfl, rfl, rfl⟩

theorem trans (h : s.Keeps s') (h' : s'.Keeps s'') : s.Keeps s'' :=
  ⟨h'.readbuf.trans h.readbuf, h'.writebuf.trans h.writebuf, h'.outbuf.trans h.outbuf,
    h'.ps1buf.trans h.ps1buf⟩

end Sc.Keeps

variable {s s' : Sc} {r : ReadResult} {b : Bool} {n : ℕ}

theorem size_shiftbuf {buf buf' : Buf} (h : shiftbuf buf n = .ok buf') :
    buf'.mem.size = buf.mem.size := by
  rw [shiftbuf] at h
  split at h
  · cases h
    rfl
  · split at h
    · obtain ⟨m, hm, h⟩ := bind_eq_ok h
      cases h
      exact Block.size_move (access_eq_ok hm)
    · cases h

theorem curFeed_keeps {data : List UInt8} (h : (curFeed s data).res = .ok (s', n)) :
    s.Keeps s' := by
  rw [curFeed] at h
  split at h
  all_goals
    obtain ⟨q, -, h⟩ := Logged.res_bind_eq_ok h
    cases h
    exact ⟨rfl, rfl, rfl, rfl⟩

theorem curFeedNull_keeps {len : ℕ} (h : (curFeedNull s len).res = .ok (s', n)) :
    s.Keeps s' := by
  rw [curFeedNull] at h
  split at h
  all_goals
    obtain ⟨q, -, h⟩ := Logged.res_bind_eq_ok h
    cases h
    exact ⟨rfl, rfl, rfl, rfl⟩

theorem programFor_keeps {c : UInt8} (h : (programFor c s).res = .ok s') : s.Keeps s' := by
  rw [programFor] at h
  split at h
  all_goals
    obtain ⟨-, -, h⟩ := Logged.res_bind_eq_ok h
    cases h
    exact ⟨rfl, rfl, rfl, rfl⟩

theorem react_keeps (h : (react s).res = .ok s') : s.Keeps s' := by
  rw [react] at h
  split at h
  · rw [res_reactInit] at h
    cases h
    exact ⟨rfl, rfl, rfl, rfl⟩
  · cases h
    exact .refl s

theorem operWriting_keeps (h : (operWriting s).res = .ok (s', b)) : s.Keeps s' := by
  rw [operWriting] at h
  split at h
  · cases h
  · obtain ⟨c, -, h⟩ := Logged.res_lift_bind_eq_ok h
    obtain ⟨-, -, h⟩ := Logged.res_bind_eq_ok h
    obtain ⟨buf, hbuf, h⟩ := Logged.res_lift_bind_eq_ok h
    obtain ⟨s₁, h₁, h⟩ := Logged.res_bind_eq_ok h
    cases h
    have hprog := programFor_keeps h₁
    exact ⟨hprog.readbuf, hprog.writebuf.trans (size_shiftbuf hbuf), hprog.outbuf, hprog.ps1buf⟩

theorem busyData_keeps (h : (busyData s).res = .ok (s', b)) : s.Keeps s' := by
  rw [busyData] at h
  obtain ⟨data, -, h⟩ := Logged.res_lift_bind_eq_ok h
  obtain ⟨⟨s₁, n⟩, h₁, h⟩ := Logged.res_bind_eq_ok h
  have hfed := curFeed_keeps h₁
  split at h
  · cases h
    exact ⟨hfed.readbuf, hfed.writebuf, hfed.outbuf, hfed.ps1buf⟩
  · obtain ⟨s₂, h₂, h⟩ := Logged.res_bind_eq_ok h
    obtain ⟨buf, hbuf, h⟩ := Logged.res_lift_bind_eq_ok h
    have hreact := hfed.trans (react_keeps h₂)
    dsimp only at h
    split at h
    · cases h
    · cases h
      exact ⟨(size_shiftbuf hbuf).trans hreact.readbuf, hreact.writebuf, hreact.outbuf,
        hreact.ps1buf⟩

/-- Where a call makes sc ready, it copies the texts. -/
structure Sc.Fills (s s' : Sc) : Prop where
  state : s'.state = .ready
  readbuf : s'.readbuf.mem.size = s.readbuf.mem.size
  writebuf : s'.writebuf.mem.size = s.writebuf.mem.size
  outbuf : s.outbuf.Moved s'.outbuf
  ps1buf : s.ps1buf.Moved s'.ps1buf

theorem copyString_moved {buf buf' : Buf} {str : List UInt8}
    (h : copyString buf str = .ok buf') : buf.Moved buf' := by
  obtain ⟨m, hm, h⟩ := bind_eq_ok h
  obtain ⟨m', hm', h⟩ := bind_eq_ok h
  cases h
  have hsize : m'.size = (buf.grow (str.length + 1)).mem.size :=
    (Block.size_store (access_eq_ok hm')).trans (Block.size_write (access_eq_ok hm))
  rw [Buf.Moved, hsize]
  exact buf.size_grow (str.length + 1)

theorem handover_fills (h : (handover s).res = .ok (s', b)) : s.Fills s' := by
  rw [handover] at h
  split at h
  · cases h
  · obtain ⟨out, -, h⟩ := Logged.res_lift_bind_eq_ok h
    obtain ⟨outbuf, hout, h⟩ := Logged.res_lift_bind_eq_ok h
    obtain ⟨ps1, -, h⟩ := Logged.res_lift_bind_eq_ok h
    obtain ⟨ps1buf, hps1, h⟩ := Logged.res_lift_bind_eq_ok h
    obtain ⟨-, -, h⟩ := Logged.res_bind_eq_ok h
    cases h
    exact ⟨rfl, rfl, rfl, copyString_moved hout, copyString_moved hps1⟩

theorem busyNodata_sizes (h : (busyNodata s).res = .ok (s', b)) : s.Keeps s' ∨ s.Fills s' := by
  rw [busyNodata] at h
  obtain ⟨⟨s₁, n⟩, h₁, h⟩ := Logged.res_bind_eq_ok h
  have hprobe := curFeedNull_keeps h₁
  split at h
  · obtain ⟨⟨s₂, n⟩, h₂, h⟩ := Logged.res_bind_eq_ok h
    obtain ⟨-, -, h⟩ := Logged.res_bind_eq_ok h
    have heod := hprobe.trans (curFeedNull_keeps h₂)
    split at h
    · cases h
      exact .inl ⟨heod.readbuf, heod.writebuf, heod.outbuf, heod.ps1buf⟩
    · have hfills := handover_fills h
      refine .inr ⟨hfills.state, hfills.readbuf.trans heod.readbuf,
        hfills.writebuf.trans heod.writebuf, ?_, ?_⟩
      · rw [← heod.outbuf]
        exact hfills.outbuf
      · rw [← heod.ps1buf]
        exact hfills.ps1buf
  · split at h
    · cases h
      exact .inl ⟨hprobe.readbuf, hprobe.writebuf, hprobe.outbuf, hprobe.ps1buf⟩
    · cases h

/-- The read buffer is made larger if it is full. -/
theorem readMore_keeps (h : (readMore r s).res = .ok (s', n)) :
    { s with readbuf := readRoom s }.Keeps s' := by
  rw [readMore] at h
  split at h
  · cases h
  · obtain ⟨-, -, h⟩ := Logged.res_bind_eq_ok h
    cases h
    exact .refl _
  · obtain ⟨-, -, h⟩ := Logged.res_bind_eq_ok h
    obtain ⟨c, hc, h⟩ := Logged.res_lift_bind_eq_ok h
    cases h
    obtain ⟨m, hm, hc⟩ := bind_eq_ok hc
    cases hc
    exact ⟨Block.size_write (access_eq_ok hm), rfl, rfl, rfl⟩

/-- **What a call of `sc_operate` does to the sizes.** -/
theorem scOperate_sizes (h : (scOperate r s).res = .ok (s', b)) :
    (s.state = .writing ∧ s.Keeps s') ∨ (s.state = .busy ∧
      ({ s with readbuf := readRoom s }.Keeps s' ∨ { s with readbuf := readRoom s }.Fills s')) := by
  rw [scOperate] at h
  split at h
  · exact .inl ⟨‹_›, operWriting_keeps h⟩
  · obtain ⟨⟨s₁, n⟩, h₁, h⟩ := Logged.res_bind_eq_ok h
    have hread := readMore_keeps h₁
    refine .inr ⟨‹_›, ?_⟩
    split at h
    · exact .inl (hread.trans (busyData_keeps h))
    · rcases busyNodata_sizes h with hkeeps | hfills
      · exact .inl (hread.trans hkeeps)
      · refine .inr ⟨hfills.state, hfills.readbuf.trans hread.readbuf,
          hfills.writebuf.trans hread.writebuf, ?_, ?_⟩
        · have := hfills.outbuf
          rwa [hread.outbuf] at this
        · have := hfills.ps1buf
          rwa [hread.ps1buf] at this
  · cases h
  · cases h
  · cases h

/-- **And `sc_write`.** -/
theorem scWrite_sizes {str : List UInt8} (h : (scWrite str s).res = .ok s') :
    s'.readbuf = s.readbuf ∧ s.writebuf.Moved s'.writebuf ∧
      s'.outbuf.mem.size = s.outbuf.mem.size ∧ s'.ps1buf = s.ps1buf := by
  rw [scWrite] at h
  split at h
  · cases h
  · split at h
    · cases h
    · obtain ⟨buf, hbuf, h⟩ := Logged.res_lift_bind_eq_ok h
      obtain ⟨m, hm, h⟩ := Logged.res_lift_bind_eq_ok h
      obtain ⟨-, -, h⟩ := Logged.res_bind_eq_ok h
      cases h
      obtain ⟨m', hm', hbuf⟩ := bind_eq_ok hbuf
      cases hbuf
      have hsize : m.size = (s.writebuf.grow (s.writebuf.cnt + str.length + 1)).mem.size :=
        (Block.size_store (access_eq_ok hm)).trans (Block.size_write (access_eq_ok hm'))
      refine ⟨rfl, ?_, rfl, rfl⟩
      rw [Buf.Moved, hsize]
      exact s.writebuf.size_grow _

namespace Core

/-! ### Runs -/

/-- A buffer is as large as in the beginning, or less than twice as large as some text that is
not empty, NUL included. -/
def SizedFor (size : ℕ) (b : Buf) (texts : Set (List UInt8)) : Prop :=
  b.mem.size = size ∨ ∃ xs ∈ texts, xs ≠ [] ∧ b.mem.size < 2 * (xs.length + 1)

/-- The read buffer is at most twice as large as what it had to hold before it was made
larger: an escape sequence that did not end. -/
def SizedForTokens (b : Buf) (rcvd : List UInt8) : Prop :=
  b.mem.size = READBUFSZ ∨ ∃ u, u <:+: rcvd ∧ hpScan u = .more ∧ b.mem.size ≤ 2 * u.length

/-- The texts that the front end was given, and the one that it is about to be given, which
`get` returns. -/
def texts (l : List Ev) (c : Conf) (get : Sc → Except Stop (List UInt8)) : Set (List UInt8) :=
  {xs | xs ∈ puts l ∨ ((∃ w, c.phase = .loop w) ∧ c.sc.state = .ready ∧ get c.sc = .ok xs)}

/-- What the sizes of the buffers come from. -/
structure Modest (l : List Ev) (c : Conf) : Prop where
  readbuf : SizedForTokens c.sc.readbuf (received l)
  writebuf : SizedFor WRITEBUFSZ c.sc.writebuf {str | str ∈ lines l}
  outbuf : SizedFor OUTBUFSZ c.sc.outbuf (texts l c scGetreply)
  ps1buf : SizedFor PS1BUFSZ c.sc.ps1buf (texts l c scGetps1)

variable {c c' : Conf} {v v' : View} {ph ph' : Phase} {l l' : List Ev}

theorem SizedFor.keeps {size : ℕ} {b b' : Buf} {T T' : Set (List UInt8)} (h : SizedFor size b T)
    (hsize : b'.mem.size = b.mem.size) (hT : ∀ xs ∈ T, xs ≠ [] → xs ∈ T') :
    SizedFor size b' T' := by
  rw [SizedFor, hsize]
  rcases h with h | ⟨xs, hxs, hne, h⟩
  · exact .inl h
  · exact .inr ⟨xs, hT xs hxs hne, hne, h⟩

/-- A buffer that may have been moved. -/
theorem SizedFor.moved {size : ℕ} {b b' : Buf} {T T' : Set (List UInt8)} {xs : List UInt8}
    (h : SizedFor size b T) (hb : b.Moved b') (hT : ∀ xs ∈ T, xs ≠ [] → xs ∈ T') (hxs : xs ∈ T')
    (hcnt : b'.cnt = xs.length) : SizedFor size b' T' := by
  rcases hb with hsize | ⟨hfull, hlt⟩
  · exact h.keeps hsize hT
  · refine .inr ⟨xs, hxs, ?_, hcnt ▸ hlt⟩
    -- there is always room for a NUL alone
    rintro rfl
    have := b.mem.size_pos
    rw [hcnt, List.length_nil] at hfull
    omega

theorem SizedForTokens.keeps {b b' : Buf} {d : List UInt8} (h : SizedForTokens b d)
    (hsize : b'.mem.size = b.mem.size) (e : List UInt8) : SizedForTokens b' (d ++ e) := by
  rw [SizedForTokens, hsize]
  rcases h with h | ⟨u, hu, hmore, h⟩
  · exact .inl h
  · exact .inr ⟨u, hu.trans (List.infix_append' [] d e), hmore, h⟩

/-- The read buffer is made larger only when it is full of one token that does not
end. -/
theorem SizedForTokens.readRoom {s : Sc} {d rb : List UInt8} (h : SizedForTokens s.readbuf d)
    (hrb : s.readbuf.Counts rb) (hin : rb <:+: d) (hmore : hpScan rb = .more) :
    SizedForTokens (Swh.readRoom s) d := by
  have hsize := size_readRoom s
  have hcnt : s.readbuf.cnt = rb.length := hrb.2
  split at hsize
  · exact .inr ⟨rb, hin, hmore, by omega⟩
  · rw [SizedForTokens, hsize]
    exact h

/-- While sc is not ready there are only the texts that were given. -/
theorem texts_of_not_ready {get : Sc → Except Stop (List UInt8)} {xs : List UInt8}
    (hno : (∃ w, c.phase = .loop w) → c.sc.state ≠ .ready) (hxs : xs ∈ texts l c get)
    (l' : List Ev) (c' : Conf) : xs ∈ texts (l ++ l') c' get := by
  rcases hxs with hxs | ⟨hph, hready, -⟩
  · refine .inl ?_
    rw [puts_append]
    exact List.mem_append_left _ hxs
  · exact absurd hready (hno hph)

/-- A step that leaves the sizes alone, before which no text was about to be given. -/
theorem Modest.keeps (h : Modest l c) (l' : List Ev) (c' : Conf) (hs : c.sc.Keeps c'.sc)
    (hno : (∃ w, c.phase = .loop w) → c.sc.state ≠ .ready) : Modest (l ++ l') c' where
  readbuf := by
    rw [received_append]
    exact h.readbuf.keeps hs.readbuf _
  writebuf := h.writebuf.keeps hs.writebuf fun str hstr _ => by
    show str ∈ lines (l ++ l')
    rw [lines_append]
    exact List.mem_append_left _ hstr
  outbuf := h.outbuf.keeps (by rw [hs.outbuf]) fun xs hxs _ => texts_of_not_ready hno hxs l' c'
  ps1buf := h.ps1buf.keeps (by rw [hs.ps1buf]) fun xs hxs _ => texts_of_not_ready hno hxs l' c'

/-- What is left over was received. -/
theorem Displays.rb_infix (h : Displays l v ph) (hlive : ∀ e, ph ≠ .stopped e) :
    v.rb <:+: received l := by
  obtain ⟨-, -, q, hrecv, -⟩ := h.pending hlive
  rw [hrecv]
  exact (List.suffix_append q v.rb).isInfix

/-- A call of `sc_operate` that returns. -/
theorem Modest.operates {s s' : Sc} {w b : Bool} {r : ReadResult}
    (h : Modest l ⟨s, .loop w⟩) (hc : Conf.Shows ⟨s, .loop w⟩ (v, .loop w))
    (hd : Displays l v (.loop w)) (hbusy : s.state ≠ .ready)
    (hres : (scOperate r s).res = .ok (s', b)) (hs' : s'.Shows v')
    (hsane' : Sane v' (if b then .loop false else .select)) :
    Modest (l ++ l') ⟨s', if b then .loop false else .select⟩ := by
  rcases scOperate_sizes hres with ⟨-, hkeeps⟩ | ⟨hst, hcase⟩
  · exact h.keeps l' _ hkeeps fun _ => hbusy
  · have hroom : Modest l ⟨{ s with readbuf := Swh.readRoom s }, .loop w⟩ :=
      ⟨h.readbuf.readRoom hc.1.readbuf (hd.rb_infix nofun) hc.sane.stuck, h.writebuf, h.outbuf,
        h.ps1buf⟩
    rcases hcase with hkeeps | hfills
    · exact hroom.keeps l' _ hkeeps fun _ => hbusy
    · have hready : v'.state = .ready := hs'.state.symm.trans hfills.state
      obtain rfl : b = true := by
        cases b with
        | true => rfl
        | false => cases hready.symm.trans (hsane'.select (.inl rfl))
      have hkept : Modest (l ++ l')
          ⟨{ s' with outbuf := s.outbuf, ps1buf := s.ps1buf }, .loop false⟩ :=
        hroom.keeps l' _ ⟨hfills.readbuf, hfills.writebuf, rfl, rfl⟩ fun _ => hbusy
      have hold : ∀ {get xs}, xs ∈ texts l ⟨s, .loop w⟩ get → xs ≠ [] →
          xs ∈ texts (l ++ l') ⟨s', .loop false⟩ get :=
        fun hxs _ => texts_of_not_ready (fun _ => hbusy) hxs l' _
      -- the texts that it has just copied are about to be given to the front end
      refine ⟨hkept.readbuf, hkept.writebuf,
        h.outbuf.moved hfills.outbuf (fun _ => hold) ?_ hs'.outbuf.2,
        h.ps1buf.moved hfills.ps1buf (fun _ => hold) ?_ hs'.ps1buf.2⟩
      · exact .inr ⟨⟨false, rfl⟩, hfills.state, scGetreply_spec hs' hsane'.outNul⟩
      · exact .inr ⟨⟨false, rfl⟩, hfills.state, scGetps1_spec hs' hsane'.ps1Nul⟩

/-- The texts are given to the front end. -/
theorem Modest.hand {s : Sc} {w : Bool} (h : Modest l ⟨s, .loop w⟩) (hs : s.Shows v)
    (hsane : Sane v (.loop w)) : Modest (l ++ replies v) ⟨s, .user⟩ := by
  have hgiven : ∀ {get xs ys}, get s = .ok ys → (ys ≠ [] → ys ∈ puts (replies v)) →
      xs ∈ texts l ⟨s, .loop w⟩ get → xs ≠ [] → xs ∈ texts (l ++ replies v) ⟨s, .user⟩ get := by
    intro get xs ys hget hys hxs hne
    refine .inl ?_
    rw [puts_append, List.mem_append]
    rcases hxs with hxs | ⟨-, -, hxs⟩
    · exact .inl hxs
    · obtain rfl : ys = xs := Except.ok.inj (hget.symm.trans hxs)
      exact .inr (hys hne)
  refine ⟨?_, ?_, ?_, ?_⟩
  · rw [received_append]
    exact h.readbuf.keeps rfl _
  · rw [lines_append, lines_replies, List.append_nil]
    exact h.writebuf
  · refine h.outbuf.keeps rfl fun xs => hgiven (scGetreply_spec hs hsane.outNul) fun hne => ?_
    rw [replies, if_neg hne]
    exact List.mem_cons_self
  · refine h.ps1buf.keeps rfl fun xs => hgiven (scGetps1_spec hs hsane.ps1Nul) fun _ => ?_
    rw [replies, puts_append]
    exact List.mem_append_right _ (List.mem_singleton_self v.ps1)

theorem Modest.step (h : Modest l c) (hc : c.Shows (v, c.phase)) (hd : Displays l v c.phase)
    (hs : Step c l' c') (hc' : c'.Shows (v', c'.phase)) : Modest (l ++ l') c' := by
  cases hs with
  | @operate s w r hbusy hfits hwoken =>
    have hst : s.state ≠ .ready := (scBusy_iff.mp hbusy).1
    rcases hres : (scOperate r s).res with e | ⟨s', b⟩
    · exact h.keeps _ _ (.refl s) fun _ => hst
    · have heq : operated s (.ok (s', b)) = ⟨s', if b then .loop false else .select⟩ := by
        cases b <;> rfl
      rw [hres, heq] at hc'
      rw [heq]
      exact h.operates hc hd hst hres hc'.1 hc'.sane
  | @wake s => exact h.keeps [] ⟨s, .loop true⟩ (.refl s) fun ⟨_, hph⟩ => (by cases hph)
  | @offline s w hoff =>
    refine h.keeps _ _ (.refl s) fun _ hready => ?_
    cases (of_decide_eq_true hoff : s.state = .offline).symm.trans hready
  | @hand s w hbusy hon =>
    rw [putReply_spec hc.1 hc.sane.outNul hc.sane.ps1Nul]
    exact h.hand hc.1 hc.sane
  | @write s str hstr =>
    have huser : (∃ w, (⟨s, .user⟩ : Conf).phase = .loop w) → s.state ≠ .ready :=
      fun ⟨_, hph⟩ => by cases hph
    rcases hres : (scWrite str s).res with e | s'
    · exact h.keeps _ _ (.refl s) huser
    · obtain ⟨hlog, -, hqueued⟩ := hc.queued hstr
      rw [hres] at hqueued
      obtain ⟨hread, hwrite, hout, hps1⟩ := scWrite_sizes hres
      have hkeeps : s.Keeps { s' with writebuf := s.writebuf, outbuf := s.outbuf } :=
        ⟨by rw [hread], rfl, rfl, hps1⟩
      have hkept : Modest (l ++ (scWrite str s).log)
          ⟨{ s' with writebuf := s.writebuf, outbuf := s.outbuf }, .loop false⟩ :=
        h.keeps _ _ hkeeps huser
      have hmem : str ∈ lines (l ++ (scWrite str s).log) := by
        rw [hlog, lines_append]
        exact List.mem_append_right _ (List.mem_singleton_self str)
      refine ⟨hkept.readbuf, ?_, ?_, ?_⟩
      · exact hkept.writebuf.moved hwrite (fun _ hxs _ => hxs) hmem hqueued.1.writebuf.2
      · exact h.outbuf.keeps hout fun _ hxs _ => texts_of_not_ready huser hxs _ _
      · exact h.ps1buf.keeps (by rw [queued, hps1]) fun _ hxs _ => texts_of_not_ready huser hxs _ _

/-- **The memory that sc takes.**  A buffer that is larger than in the beginning is less
than twice as large as one thing that it had to hold, NUL included: the write buffer as a
line that was queued, the buffers of the texts as a text that the front end was given or is
about to be given.  The read buffer is at most twice as large as an escape sequence that had
filled it without coming to its end. -/
theorem memory (h : Run start l c) : Modest l c := by
  have hinit : Modest [] start := ⟨.inl rfl, .inl rfl, .inl rfl, .inl rfl⟩
  obtain ⟨-, -, -, hm⟩ := h.invariant (i := [])
    (J := fun l c => ∃ v, c.Shows (v, c.phase) ∧ Displays l v c.phase ∧ Modest l c)
    (by
      rintro l c l' c' ⟨v, hc, hd, hm⟩ hs
      obtain ⟨v', ph', hmove, hc'⟩ := hc.step hs
      have hd' := hd.moves hc.sane hmove
      obtain rfl : c'.phase = ph' := hc'.2.1
      exact ⟨v', hc', hd', hm.step hc hd hs hc'⟩)
    ⟨.init, start_shows, displays_init, hinit⟩
  exact hm

/-- The switch has a long prompt, and the user types a long line. -/
theorem memory_chat : ∃ l c, Run start l c ∧ PS1BUFSZ < c.sc.ps1buf.mem.size ∧
    WRITEBUFSZ < c.sc.writebuf.mem.size ∧ Modest l c := by
  have hprompt : ∀ x ∈ List.replicate PS1BUFSZ 36, x = (36 : UInt8) :=
    fun x hx => List.eq_of_mem_replicate hx
  have hP : Plain (List.replicate PS1BUFSZ 36) :=
    ⟨by decide, fun h => absurd (hprompt _ h) (by decide)⟩
  have hnul : untilNul (List.replicate PS1BUFSZ 36) = List.replicate PS1BUFSZ 36 :=
    untilNul_of_notMem fun h => absurd (hprompt _ h) (by decide)
  obtain ⟨c, hrun, hc⟩ := run_answered (List.replicate (WRITEBUFSZ + 1) 97)
    (isChat_prompt hP) (by simp [PS1BUFSZ, READBUFSZ]) (List.cons_ne_nil _ _)
  have hps1 := hc.1.ps1buf.cnt_lt
  rw [hc.1.ps1buf.2] at hps1
  have hline := hc.1.writebuf.1.length_le
  refine ⟨_, c, hrun, ?_, ?_, memory hrun⟩
  · calc PS1BUFSZ = (untilNul (List.replicate PS1BUFSZ 36)).length := by
          rw [hnul, List.length_replicate]
      _ < c.sc.ps1buf.mem.size := hps1
  · calc WRITEBUFSZ < WRITEBUFSZ + 1 := Nat.lt_succ_self _
      _ = (List.replicate (WRITEBUFSZ + 1) (97 : UInt8)).length := List.length_replicate.symm
      _ ≤ c.sc.writebuf.mem.size := hline

end Core

end Swh
