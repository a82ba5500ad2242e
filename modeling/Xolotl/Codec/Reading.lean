import Xolotl.Codec.Script

/-! One call of the decoder, at any place of a script and for any window. -/

namespace Xolotl.Codec

open Xolotl.Types List Word FrameDecoder

variable (codec : HeaderCodec) {part bytes input : List UInt8} {header : Header}
  {event : Option Event}

theorem split_window {window later rest : List UInt8} (h : part ++ rest = window ++ later) :
    (∃ more, more ≠ [] ∧ part = window ++ more ∧ later = more ++ rest) ∨
      ∃ window', window = part ++ window' ∧ rest = window' ++ later := by
  rcases append_eq_append_iff.mp h with ⟨window', hwindow, hr⟩ | ⟨more, hp, hl⟩
  · exact .inr ⟨window', hwindow, hr⟩
  · by_cases hm : more = []
    · subst hm
      refine .inr ⟨[], ?_, ?_⟩
      · rw [hp, append_nil, append_nil]
      · rw [hl]
        rfl
    · exact .inl ⟨more, hm, hp, hl⟩

/-! ## Headers -/

namespace FrameDecoder

variable {codec} {header : Header} {d : FrameDecoder} {first : UInt8} (he : header.Encodable)
include he

theorem headerBytes_of_push {rest : List UInt8} (hf : codec.push header = first :: rest) :
    headerBytes first = (codec.push header).length := by
  have hbs := codec.headerBytes_push header he
  rw [hf] at hbs
  exact (Option.some.inj hbs).trans (codec.length_push header he).symm

variable {window : List UInt8}

omit he in
theorem fillHeader_part {n : Nat} (hbs : headerBytes first = d.header.length + n)
    (hl : window.length < n) (hf : d.offset + window.length ≤ u64Max) :
    d.fillHeader codec first window =
      (.ok none, { d with
        offset := d.offset + window.length, header := d.header ++ window }, []) := by
  have hc : min (headerBytes first - d.header.length) window.length = window.length := by omega
  unfold fillHeader
  simp only [hc, advanceOffset_ok hf, take_length, drop_length]
  rw [if_pos]
  rw [length_append]
  omega

variable {miss : List UInt8}

theorem fillHeader_full (hp : codec.push header = d.header ++ miss)
    (hbs : headerBytes first = (codec.push header).length)
    (hf : d.offset + miss.length ≤ u64Max) :
    d.fillHeader codec first (miss ++ window) =
      (.ok (some header), { d with offset := d.offset + miss.length, header := [] }, window) := by
  have hl := congrArg List.length hp
  rw [length_append] at hl
  have hc : min (headerBytes first - d.header.length) (miss ++ window).length = miss.length := by
    rw [length_append]
    omega
  unfold fillHeader
  simp only [hc, advanceOffset_ok hf, take_left, drop_left]
  rw [← hp, if_neg (by rw [hbs]; simp), codec.pull_push header he]

theorem pullHeader_part {more : List UInt8}
    (hp : codec.push header = d.header ++ miss) (hmi : miss = window ++ more) (hm : more ≠ [])
    (hf : d.offset + window.length ≤ u64Max) :
    d.pullHeader codec window =
      (.ok none, { d with
        offset := d.offset + window.length, header := d.header ++ window }, []) := by
  have hpos := length_pos_iff.mpr hm
  subst hmi
  obtain ⟨state, staged, offset, error⟩ := d
  have hl := congrArg List.length hp
  rw [length_append, length_append] at hl
  replace hf : offset + window.length ≤ u64Max := hf
  cases staged with
  | cons first staged =>
    have hbs := headerBytes_of_push he hp
    exact fillHeader_part (hbs.trans hl) (by omega) hf
  | nil =>
    cases window with
    | nil => rfl
    | cons first window =>
      have hbs := headerBytes_of_push he hp
      rw [length_cons] at hf
      have ho : offset + 1 ≤ u64Max := by omega
      have hpa : fillHeader codec ⟨state, [first], offset + 1, error⟩ first window =
          (.ok none, ⟨state, [first] ++ window, offset + 1 + window.length, error⟩, []) := by
        refine fillHeader_part (n := window.length + more.length) ?_ (by omega) ?_
        · rw [hbs, hl]
          simp only [length_cons]
          omega
        · simp only
          omega
      simp only [pullHeader, advanceOffset_ok ho, hpa]
      simp [Nat.add_assoc, Nat.add_comm 1]

theorem pullHeader_full (hp : codec.push header = d.header ++ miss) (hm : miss ≠ [])
    (hf : d.offset + miss.length ≤ u64Max) : d.pullHeader codec (miss ++ window) =
      (.ok (some header), { d with offset := d.offset + miss.length, header := [] }, window) := by
  obtain ⟨state, staged, offset, error⟩ := d
  replace hf : offset + miss.length ≤ u64Max := hf
  cases staged with
  | cons first staged => exact fillHeader_full he hp (headerBytes_of_push he hp) hf
  | nil =>
    cases miss with
    | nil => exact absurd rfl hm
    | cons first miss =>
      have hbs := headerBytes_of_push he hp
      rw [length_cons] at hf
      have ho : offset + 1 ≤ u64Max := by omega
      have hfu : fillHeader codec ⟨state, [first], offset + 1, error⟩ first (miss ++ window) =
          (.ok (some header), ⟨state, [], offset + 1 + miss.length, error⟩, window) := by
        refine fillHeader_full he hp hbs ?_
        simp only
        omega
      simp only [cons_append, pullHeader, advanceOffset_ok ho, hfu]
      simp [Nat.add_assoc, Nat.add_comm 1]

end FrameDecoder

/-! ## Places -/

/-- The decoder stands at a place of a script: with the staged bytes, what is left of the
text is what the tokens spell. -/
structure Stands (total : Nat) (d : FrameDecoder) (left : List UInt8) (tokens : List Token)
    (events : List Event) : Prop where
  script : Script d.state tokens events
  bytes : d.header ++ left = tokenBytes codec tokens
  staged : d.header = [] ∨ ∃ header rest, tokens = .header header :: rest ∧
    d.header.length < (codec.push header).length
  error : d.error = none
  offset : d.offset + left.length = total

inductive Yields : List Event → Event → List Event → Prop
  | whole {event : Event} {events : List Event} : Yields (event :: events) event events
  | part {front rest : List UInt8} {events : List Event} : front ≠ [] → rest ≠ [] →
      Yields (.data (front ++ rest) :: events) (.data front) (.data rest :: events)

variable (total : Nat) (extra later input : List UInt8) (events : List Event) in
/-- What a turn or a call does at a place of a script, when the text is followed by `extra`
and the window by `later`. -/
inductive Reads : FrameDecoder.Turn → Prop
  | again {d : FrameDecoder} {left front window : List UInt8} {tokens : List Token} :
      Stands codec total d left tokens events → left ++ extra = window ++ later →
      input = front ++ window → front ≠ [] → Reads (.again d window)
  | needInput {d : FrameDecoder} {left : List UInt8} {tokens : List Token} :
      Stands codec total d left tokens events → tokens ≠ [] → left ++ extra = later →
      Reads (.done .needInput d [])
  | event {d : FrameDecoder} {left front window : List UInt8} {tokens : List Token} {event : Event}
      {rest : List Event} : Stands codec total d left tokens rest → tokens ≠ [] →
      left ++ extra = window ++ later → input = front ++ window → front ≠ [] →
      Yields events event rest →
      Reads (.done (.event event) d window)
  | end_ {d : FrameDecoder} : Stands codec total d [] [] [] → events = [] → extra = later →
      Reads (.done .end_ d [])
  | trailing {d : FrameDecoder} : d.error = none → extra ≠ [] →
      Reads (.fail .trailingData d)

variable {codec} {total : Nat} {extra later : List UInt8} {d : FrameDecoder}
  {left window : List UInt8} {tokens : List Token} {events : List Event} {rest : List Token}
  {state : DecodeState}

theorem Script.tokens_ne_nil (h : Script state tokens events)
    (hst : state ≠ .ended) : tokens ≠ [] := by
  cases h with
  | ended => exact absurd rfl hst
  | header _ _ _ _ | magic _ _ | data _ _ => exact cons_ne_nil _ _

theorem push_ne_nil (he : header.Encodable) : codec.push header ≠ [] := by
  intro hnil
  have hbs := codec.headerBytes_push header he
  rw [hnil] at hbs
  cases hbs

theorem Stands.missing (he : header.Encodable)
    (h : Stands codec total d left (.header header :: rest) events) :
    ∃ miss, miss ≠ [] ∧ codec.push header = d.header ++ miss ∧
      left = miss ++ tokenBytes codec rest := by
  have hle : d.header.length < (codec.push header).length := by
    rcases h.staged with hnil | ⟨_, _, heq, hlt⟩
    · rw [hnil]
      exact length_pos_iff.mpr (push_ne_nil he)
    · cases heq
      exact hlt
  have hbs : d.header ++ left = codec.push header ++ tokenBytes codec rest := h.bytes
  rcases append_eq_append_iff.mp hbs with ⟨miss, hp, hl⟩ | ⟨more, hs, -⟩
  · refine ⟨miss, ?_, hp, hl⟩
    rintro rfl
    rw [hp, append_nil] at hle
    exact absurd hle (Nat.lt_irrefl _)
  · rw [hs, length_append] at hle
    omega

theorem turn_of_reads (h : d.state.reads = true) :
    d.turn codec window = d.turnHeader codec window := by
  unfold FrameDecoder.turn
  cases hst : d.state with
  | magic _ | data _ | ended | finished =>
    rw [hst] at h
    cases h
  | _ => rfl

theorem map_record {α : Type} {x : Except ErrorKind α} {f : α → Event}
    (h : (x.map fun a => (DecodeState.record, some (f a))) = .ok (state, event)) :
    state = .record := by
  cases x with
  | error e => cases h
  | ok a => exact (congrArg Prod.fst (Except.ok.inj h)).symm

theorem argument_event {tag : UInt64} {event : Event}
    (h : argument tag header = .ok (state, some event)) : state = .record := by
  unfold argument at h
  split at h
  case h_9 =>
    split at h
    · cases h
    · split at h <;> cases h
      rfl
  case h_10 => cases h
  case h_5 | h_6 => cases h; rfl
  all_goals exact map_record h

theorem accept_event {state' : DecodeState} {event : Event}
    (h : accept state header = .ok (state', some event)) : state' = .record := by
  cases state with
  | envelope | magicHeader | events =>
    simp only [accept] at h
    split at h <;> cases h
  | version =>
    simp only [accept] at h
    split at h
    · split at h <;> cases h
    · cases h
  | record =>
    simp only [accept] at h
    split at h
    · cases h
    · split at h <;> cases h
    · cases h
  | tag arity =>
    simp only [accept] at h
    split at h
    · split at h
      · cases h
      · split at h
        · cases h
        · split at h
          · cases h
          · exact map_record h
    · cases h
  | argument tag => exact argument_event h
  | magic _ | data _ | ended | finished => cases h

theorem mismatch_append (bytes more : List UInt8) :
    mismatch bytes (bytes ++ more) = none := by
  unfold mismatch
  induction bytes with
  | nil => rfl
  | cons byte bytes ih =>
    rw [cons_append, zip_cons_cons, List.findIdx?_cons]
    simp [ih]

theorem Stands.raw (h : Stands codec total d left (.raw bytes :: rest) events) :
    d.header = [] ∧ left = bytes ++ tokenBytes codec rest := by
  have hnil : d.header = [] := by
    rcases h.staged with hnil | ⟨_, _, heq, -⟩
    · exact hnil
    · cases heq
  have hbs := h.bytes
  rw [hnil] at hbs
  exact ⟨hnil, hbs⟩

theorem Stands.skip {tokens' : List Token} {events' : List Event}
    (h : Stands codec total d (part ++ left) tokens events) (hs : d.header = [])
    (hsc : Script state tokens' events') (hbs : left = tokenBytes codec tokens') :
    Stands codec total { d with offset := d.offset + part.length, state } left tokens' events' := by
  have ho := h.offset
  rw [length_append] at ho
  refine ⟨hsc, ?_, .inl hs, h.error, ?_⟩
  · rw [← hbs]
    exact congrArg (· ++ left) hs
  · simp only
    omega

theorem Stands.state_of_left_nil (h : Stands codec total d [] tokens events) :
    d.state = .ended := by
  have hs := h.script
  generalize d.state = state at hs
  cases hs with
  | ended => rfl
  | header _ he _ _ =>
    obtain ⟨miss, hm, -, hl⟩ := h.missing he
    exact absurd (append_eq_nil_iff.mp hl.symm).1 hm
  | magic hmc _ =>
    have hnil := drop_eq_nil_iff.mp (append_eq_nil_iff.mp h.raw.2.symm).1
    omega
  | data hbs _ => exact absurd (append_eq_nil_iff.mp h.raw.2.symm).1 hbs

theorem Stands.nil_of_ended (h : Stands codec total d left tokens events) (hst : d.state = .ended) :
    tokens = [] ∧ events = [] := by
  have hs := h.script
  rw [hst] at hs
  cases hs with
  | ended => exact ⟨rfl, rfl⟩
  | header hr _ _ _ => cases hr

section

variable (htotal : total ≤ u64Max) (hwindow : left ++ extra = window ++ later)
include htotal hwindow

theorem reads_header (hre : d.state.reads = true) (he : header.Encodable)
    (ha : accept d.state header = .ok (state, event)) (hsc : Script state rest events)
    (h : Stands codec total d left (.header header :: rest) (event.toList ++ events)) :
    Reads codec total extra later window (event.toList ++ events) (d.turn codec window) := by
  obtain ⟨miss, hm, hp, rfl⟩ := h.missing he
  have ho := h.offset
  rw [length_append] at ho
  rw [turn_of_reads hre, turnHeader]
  rw [append_assoc] at hwindow
  rcases split_window hwindow with ⟨more, hmo, hpa, hl⟩ | ⟨window', rfl, hr⟩
  · have hle := congrArg List.length hpa
    rw [length_append] at hle
    rw [pullHeader_part he hp hpa hmo (by omega)]
    have hs : Stands codec total
        { d with offset := d.offset + window.length, header := d.header ++ window }
        (more ++ tokenBytes codec rest) (.header header :: rest) (event.toList ++ events) := by
      refine ⟨h.script, ?_, .inr ⟨header, rest, rfl, ?_⟩, h.error, ?_⟩
      · have hbs : d.header ++ window ++ (more ++ tokenBytes codec rest) =
            codec.push header ++ tokenBytes codec rest := by
          rw [hp, hpa]
          simp only [append_assoc]
        exact hbs
      · have hpos := length_pos_iff.mpr hmo
        simp only [hp, length_append]
        omega
      · simp only [length_append]
        omega
    refine .needInput hs (cons_ne_nil _ _) ?_
    rw [hl, append_assoc]
  · rw [pullHeader_full he hp hm (by omega)]
    have hs : Stands codec total
        { d with offset := d.offset + miss.length, header := [], state }
          (tokenBytes codec rest) rest
        events := by
      refine ⟨hsc, rfl, .inl rfl, h.error, ?_⟩
      simp only
      omega
    simp only [ha]
    cases event with
    | none => exact .again hs hr rfl hm
    | some event =>
      have hne : rest ≠ [] := hsc.tokens_ne_nil (by rw [accept_event ha]; nofun)
      exact .event hs hne hr rfl hm .whole

/-! ## Payloads -/

theorem reads_magic {matched : Nat}
    (hmc : matched < magic.length) (hs : Script .version rest events)
    (hst : d.state = .magic matched)
    (h : Stands codec total d left (.raw (magic.drop matched) :: rest) events) :
    Reads codec total extra later window events (d.turn codec window) := by
  obtain ⟨hsg, rfl⟩ := h.raw
  have hof := h.offset
  have hd : (magic.drop matched).length = magic.length - matched := length_drop
  rw [length_append] at hof
  rw [append_assoc] at hwindow
  have ht : d.turn codec window = d.turnMagic matched window := by
    rw [FrameDecoder.turn, hst]
  rw [ht]
  rcases split_window hwindow with ⟨more, hmo, hp, hl⟩ | ⟨window', rfl, hr⟩
  · have hle := congrArg List.length hp
    rw [length_append] at hle
    have hpos := length_pos_iff.mpr hmo
    have hc : min (magic.length - matched) window.length = window.length := by omega
    have hf : d.offset + window.length ≤ u64Max := by omega
    have hr : magic.drop (matched + window.length) = more := by
      rw [← drop_drop, hp, drop_left]
    unfold turnMagic
    simp only [hc, take_length, drop_length]
    rw [hp, mismatch_append]
    simp only [advanceOffset_ok hf]
    rw [if_pos (by omega)]
    rw [hp, append_assoc] at h
    have ho : matched + window.length < magic.length := by omega
    have hs' := Script.magic ho hs
    refine .needInput (h.skip hsg hs' ?_) (cons_ne_nil _ _) ?_
    · rw [hr]
      rfl
    · rw [hl, append_assoc]
  · have hc : min (magic.length - matched) (magic.drop matched ++ window').length =
        (magic.drop matched).length := by
      rw [length_append]
      omega
    have hf : d.offset + (magic.drop matched).length ≤ u64Max := by omega
    have hm := mismatch_append (magic.drop matched) []
    rw [append_nil] at hm
    unfold turnMagic
    simp only [hc, take_left, drop_left, hm, advanceOffset_ok hf]
    rw [if_neg (by omega)]
    exact .again (h.skip hsg hs rfl) hr rfl (ne_nil_of_length_pos (by omega))

theorem reads_data (hbs : bytes ≠ []) (hs : Script .record rest events)
    (hst : d.state = .data bytes.length)
    (h : Stands codec total d left (.raw bytes :: rest) (.data bytes :: events)) :
    Reads codec total extra later window (.data bytes :: events) (d.turn codec window) := by
  have ht : d.turn codec window = d.turnData bytes.length window := by
    rw [FrameDecoder.turn, hst]
  rw [ht]
  by_cases hnil : window = []
  · subst hnil
    have hem : d.turnData bytes.length [] = .done .needInput d [] := by
      simp [turnData]
    rw [hem]
    exact .needInput h (cons_ne_nil _ _) hwindow
  obtain ⟨hsg, rfl⟩ := h.raw
  have ho := h.offset
  have hpos := length_pos_iff.mpr hnil
  rw [length_append] at ho
  rw [append_assoc] at hwindow
  rcases split_window hwindow with ⟨more, hm, rfl, hla⟩ | ⟨window', rfl, hr⟩
  · have hl := length_pos_iff.mpr hm
    have hc : min (window ++ more).length window.length = window.length := by
      rw [length_append]
      omega
    have hne : ¬ window.length = (window ++ more).length := by
      rw [length_append]
      omega
    have hr : (window ++ more).length - window.length = more.length := by
      rw [length_append, Nat.add_sub_cancel_left]
    have hf : d.offset + window.length ≤ u64Max := by omega
    unfold turnData
    simp only [hc, if_neg (Nat.ne_of_gt hpos), advanceOffset_ok hf, if_neg hne, hr,
      take_length, drop_length]
    rw [append_assoc] at h
    refine .event (h.skip hsg (.data hm hs) rfl) (cons_ne_nil _ _) ?_
      (append_nil window).symm hnil (.part hnil hm)
    rw [hla, append_assoc]
    rfl
  · have hl := length_pos_iff.mpr hbs
    have hc : min bytes.length (bytes ++ window').length = bytes.length := by
      rw [length_append]
      omega
    have hf : d.offset + bytes.length ≤ u64Max := by omega
    unfold turnData
    simp only [hc, if_neg (Nat.ne_of_gt hl), advanceOffset_ok hf, take_left, drop_left]
    exact .event (h.skip hsg hs rfl) (hs.tokens_ne_nil nofun) hr rfl hbs .whole

omit htotal in
theorem reads_ended (hst : d.state = .ended) (h : Stands codec total d left [] []) :
    Reads codec total extra later window [] (d.turn codec window) := by
  have hnil : d.header = [] ∧ left = [] := append_eq_nil_iff.mp h.bytes
  obtain ⟨-, rfl⟩ := hnil
  have ht : d.turn codec window =
      if window ≠ [] then .fail .trailingData d else .done .end_ d window := by
    rw [FrameDecoder.turn, hst]
  rw [ht]
  split
  next hne =>
    refine .trailing h.error ?_
    rintro rfl
    exact hne (append_eq_nil_iff.mp hwindow.symm).1
  next hnil =>
    obtain rfl := Decidable.not_not.mp hnil
    exact .end_ h rfl hwindow

theorem reads_turn (h : Stands codec total d left tokens events) :
    Reads codec total extra later window events (d.turn codec window) := by
  have hs := h.script
  generalize hst : d.state = state at hs
  cases hs with
  | ended => exact reads_ended hwindow hst h
  | header hre he ha hr =>
    subst hst
    exact reads_header htotal hwindow hre he ha hr h
  | magic hm hr => exact reads_magic htotal hwindow hm hr hst h
  | data hbs hr => exact reads_data htotal hwindow hbs hr hst h

end

/-! ## Calls -/

theorem Reads.append {front : List UInt8} {turn : FrameDecoder.Turn}
    (h : Reads codec total extra later input events turn) :
    Reads codec total extra later (front ++ input) events turn := by
  cases h with
  | again hs heq hi hne =>
    exact .again hs heq (by rw [hi, append_assoc]) (append_ne_nil_of_right_ne_nil _ hne)
  | needInput hs hne heq => exact .needInput hs hne heq
  | event hs ht heq hi hne hy =>
    exact .event hs ht heq (by rw [hi, append_assoc]) (append_ne_nil_of_right_ne_nil _ hne) hy
  | end_ hs hev heq => exact .end_ hs hev heq
  | trailing her hex => exact .trailing her hex

theorem reads_turns (htotal : total ≤ u64Max) (h : Stands codec total d left tokens events)
    (hwindow : left ++ extra = window ++ later) {n : Nat} (hn : window.length < n) :
    Reads codec total extra later window events (d.turns codec n window) ∧
      ∀ d' window', d.turns codec n window ≠ .again d' window' := by
  induction n generalizing d left tokens window with
  | zero => exact absurd hn (Nat.not_lt_zero _)
  | succ n ih =>
    have ht := reads_turn htotal hwindow h
    rw [FrameDecoder.turns]
    generalize d.turn codec window = result at ht
    cases ht with
    | @again d' left' front window' tokens' hs heq hi hne =>
      have hl := congrArg List.length hi
      have hpos := length_pos_iff.mpr hne
      rw [length_append] at hl
      obtain ⟨hr, hd⟩ := ih hs heq (by omega)
      exact ⟨hi ▸ hr.append, hd⟩
    | needInput hs hne heq => exact ⟨.needInput hs hne heq, nofun⟩
    | event hs hto heq hi hne hy =>
      exact ⟨.event hs hto heq hi hne hy, nofun⟩
    | end_ hs hev heq => exact ⟨.end_ hs hev heq, nofun⟩
    | trailing her hex => exact ⟨.trailing her hex, nofun⟩

variable (codec : HeaderCodec) (total : Nat) (extra later input : List UInt8)
  (events : List Event) in
inductive Decoded : Except Error DecodeStep × FrameDecoder → Prop
  | needInput {d : FrameDecoder} {left : List UInt8} {tokens : List Token} :
      Stands codec total d left tokens events → tokens ≠ [] → left ++ extra = later →
      Decoded (.ok ⟨input.length, .needInput⟩, d)
  | event {d : FrameDecoder} {left : List UInt8} {tokens : List Token} {event : Event}
      {rest : List Event} {consumed : Nat} : Stands codec total d left tokens rest →
      tokens ≠ [] → left ++ extra = input.drop consumed ++ later → 0 < consumed →
      consumed ≤ input.length → Yields events event rest →
      Decoded (.ok ⟨consumed, .event event⟩, d)
  | end_ {d : FrameDecoder} : Stands codec total d [] [] [] → events = [] → extra = later →
      Decoded (.ok ⟨input.length, .end_⟩, d)
  | trailing {d : FrameDecoder} {error : Error} : error.kind = .trailingData →
      d.error = some error → extra ≠ [] →
      Decoded (.error error, d)

theorem decoded (htotal : total ≤ u64Max) (h : Stands codec total d left tokens events)
    (hi : left ++ extra = input ++ later) :
    Decoded codec total extra later input events (d.decode codec input) := by
  obtain ⟨hr, hd⟩ := reads_turns htotal h hi (Nat.lt_succ_self _)
  rw [decode, h.error]
  generalize d.turns codec (input.length + 1) input = result at hr hd
  cases hr with
  | again _ _ _ _ => exact absurd rfl (hd _ _)
  | needInput hs hne heq => exact .needInput hs hne heq
  | @event d' left' front window tokens' event rest hs ht heq hsp hne hy =>
    have hl := congrArg List.length hsp
    have hpos := length_pos_iff.mpr hne
    rw [length_append] at hl
    have hc : input.length - window.length = front.length := by omega
    refine .event hs ht ?_ (by omega) (Nat.sub_le _ _) hy
    rw [hc, heq, hsp, drop_left]
  | end_ hs hev heq => exact .end_ hs hev heq
  | @trailing d' her hex =>
    refine .trailing ?_ rfl hex
    simp [FrameDecoder.fail, her]

end Xolotl.Codec
