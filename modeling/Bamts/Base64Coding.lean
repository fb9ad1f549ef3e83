import Bamts.Base64
import Mathlib.Data.List.DropRight

/-! What decoding makes of a text that encoding wrote, and how a decoder that stopped early goes on. -/
set_option linter.all false
namespace Bamts.Base64

section
variable {alphabet : Base64Alphabet} {handling : LastChunkHandling} {limit : Nat} {s t : DecodeState} {rest : List UInt8} {byte digit : UInt8}

def feedByte (alphabet : Base64Alphabet) (s : DecodeState) (byte : UInt8) : Option DecodeState :=
  if isAsciiWhitespace byte then some { s with index := s.index+1 }
  else if byte = 0x3d then none
  else (base64Digit byte alphabet).map s.push

def feed (alphabet : Base64Alphabet) (s : DecodeState) (text : List UInt8) : Option DecodeState := text.foldlM (feedByte alphabet) s

def Roomy (limit : Nat) (s : DecodeState) (rest : List UInt8) : Prop := s.bytes.length+s.chunk.length+rest.length ≤ limit ∧ s.chunk.length < 4

theorem chunkBytesLength {chunk} (short : chunk.length ≤ 4) : (chunkBytes chunk).length = chunk.length-1 := by
  simp only [chunkBytes,List.length_take,List.length_cons,List.length_nil]
  omega

theorem decodedLength {chunk decoded reject} (short : chunk.length ≤ 4) (done : decodeBase64Chunk chunk reject = some decoded) :
    decoded.length = chunk.length-1 := by
  unfold decodeBase64Chunk at done
  split at done
  · cases done
  · split at done
    · cases done
    · cases done
      exact chunkBytesLength short

theorem pushWhole (whole : s.chunk.length = 3) (digit) :
    s.push digit = ⟨s.bytes ++ chunkBytes (s.chunk ++ [digit]),[],s.index+1,s.index+1⟩ := if_pos whole

theorem pushPart (part : s.chunk.length ≠ 3) (digit) : s.push digit = { s with chunk := s.chunk ++ [digit],index := s.index+1 } := if_neg part

theorem feedSpace (space : isAsciiWhitespace byte = true) : feedByte alphabet s byte = some { s with index := s.index+1 } := if_pos space

theorem feedDigit (space : isAsciiWhitespace byte = false) (pad : byte ≠ 0x3d) (known : base64Digit byte alphabet = some digit) :
    feedByte alphabet s byte = some (s.push digit) := by
  rw [feedByte,if_neg (by rw [space]; decide),if_neg pad,known]
  rfl

theorem Roomy.space (room : Roomy limit s (byte :: rest)) : Roomy limit { s with index := s.index+1 } rest := by
  obtain ⟨total,short⟩ := room
  simp only [List.length_cons] at total
  exact ⟨by dsimp only; omega,short⟩

theorem Roomy.push (room : Roomy limit s (byte :: rest)) (digit) :
    Roomy limit (s.push digit) rest ∧ ¬((s.push digit).chunk = [] ∧ (s.push digit).bytes.length = limit) := by
  obtain ⟨total,short⟩ := room
  simp only [List.length_cons] at total
  by_cases whole : s.chunk.length = 3
  · have three : (chunkBytes (s.chunk ++ [digit])).length = 3 := by
      rw [chunkBytesLength (by simp [whole])]
      simp [whole]
    rw [pushWhole whole]
    refine ⟨⟨?_,Nat.zero_lt_succ _⟩,fun full => ?_⟩
    · simp only [List.length_append,three,List.length_nil]
      omega
    · simp only [List.length_append,three] at full
      omega
  · rw [pushPart whole]
    refine ⟨⟨?_,?_⟩,fun full => absurd full.1 (by simp)⟩
    · simp only [List.length_append,List.length_singleton]
      omega
    · simp only [List.length_append,List.length_singleton]
      omega

theorem Roomy.unstopped (room : Roomy limit s (byte :: rest)) :
    ¬(limit-s.bytes.length = 1 ∧ s.chunk.length = 2 ∨ limit-s.bytes.length = 2 ∧ s.chunk.length = 3) := by
  obtain ⟨total,short⟩ := room
  omega

theorem loopFeed (handling) (room : Roomy limit s (byte :: rest)) (fed : feedByte alphabet s byte = some t) :
    decodeLoop alphabet handling limit (byte :: rest) s = decodeLoop alphabet handling limit rest t ∧ Roomy limit t rest := by
  unfold feedByte at fed
  rw [decodeLoop]
  split at fed
  · rename_i space
    cases fed
    rw [if_pos space]
    exact ⟨rfl,room.space⟩
  · rename_i solid
    rw [if_neg solid]
    split at fed
    · cases fed
    · rename_i open_
      obtain ⟨digit,known,rfl⟩ := Option.map_eq_some_iff.mp fed
      rw [if_neg open_,known]
      dsimp only
      rw [if_neg room.unstopped,if_neg (room.push digit).2]
      exact ⟨rfl,(room.push digit).1⟩

theorem loopFeeds (handling) {text} (room : Roomy limit s (text ++ rest)) (fed : feed alphabet s text = some t) :
    decodeLoop alphabet handling limit (text ++ rest) s = decodeLoop alphabet handling limit rest t ∧ Roomy limit t rest := by
  induction text generalizing s with
  | nil =>
    cases fed
    exact ⟨rfl,room⟩
  | cons byte text ih =>
    obtain ⟨u,first,later⟩ := Option.bind_eq_some_iff.mp fed
    obtain ⟨same,room'⟩ := loopFeed handling room first
    obtain ⟨same',room''⟩ := ih room' later
    exact ⟨same.trans same',room''⟩

def DecodeState.behind (bytes : List UInt8) (count : Nat) (s : DecodeState) : DecodeState := ⟨bytes ++ s.bytes,s.chunk,count+s.read,count+s.index⟩

def DecodedBytes.behind (bytes : List UInt8) (count : Nat) (r : DecodedBytes) : DecodedBytes := ⟨bytes ++ r.bytes,count+r.read,r.error⟩

theorem pushBehind (bytes count) (s : DecodeState) (digit) :
    (s.behind bytes count).push digit = (s.push digit).behind bytes count := by
  by_cases whole : s.chunk.length = 3
  · rw [pushWhole whole,pushWhole (show (s.behind bytes count).chunk.length = 3 from whole)]
    simp only [DecodeState.behind,List.append_assoc,Nat.add_assoc]
  · rw [pushPart whole,pushPart (show (s.behind bytes count).chunk.length ≠ 3 from whole)]
    rfl

theorem finishBehind (bytes count s) :
    finish handling (s.behind bytes count) = (finish handling s).behind bytes count := by
  unfold finish
  rw [show (s.behind bytes count).chunk = s.chunk from rfl]
  split
  · rfl
  · cases handling with
    | loose =>
      dsimp only
      split
      · simp only [DecodeState.behind,DecodedBytes.behind,List.append_assoc]
      · rfl
    | _ => rfl

theorem paddingBehind (bytes count s rest) :
    decodePadding handling (s.behind bytes count) rest = (decodePadding handling s rest).behind bytes count := by
  unfold decodePadding
  rw [show (s.behind bytes count).chunk = s.chunk from rfl]
  split
  · rfl
  · dsimp only
    split
    · rfl
    · split <;> split <;> try rfl
      all_goals
        cases decodeBase64Chunk s.chunk (handling = .strict) with
        | none => rfl
        | some decoded => simp only [DecodeState.behind,DecodedBytes.behind,List.append_assoc,Nat.add_assoc]

theorem loopBehind {limit'} (bytes count) (room : Roomy limit s rest) (room' : Roomy limit' (s.behind bytes count) rest) :
    decodeLoop alphabet handling limit' rest (s.behind bytes count) = (decodeLoop alphabet handling limit rest s).behind bytes count := by
  induction rest generalizing s with
  | nil => exact finishBehind bytes count s
  | cons byte rest ih =>
    cases fed : feedByte alphabet s byte with
    | some t =>
      have fed' : feedByte alphabet (s.behind bytes count) byte = some (t.behind bytes count) := by
        unfold feedByte at fed ⊢
        split at fed
        · rename_i space
          cases fed
          rw [if_pos space]
          rfl
        · rename_i solid
          rw [if_neg solid]
          split at fed
          · cases fed
          · rename_i open_
            rw [if_neg open_]
            obtain ⟨digit,known,rfl⟩ := Option.map_eq_some_iff.mp fed
            rw [known,Option.map_some,pushBehind]
      obtain ⟨same,room⟩ := loopFeed handling room fed
      obtain ⟨same',room'⟩ := loopFeed handling room' fed'
      rw [same,same']
      exact ih room room'
    | none =>
      unfold feedByte at fed
      rw [decodeLoop,decodeLoop]
      split at fed
      · cases fed
      · rename_i solid
        rw [if_neg solid,if_neg solid]
        split at fed
        · rename_i pad
          rw [if_pos pad,if_pos pad]
          exact paddingBehind bytes count s rest
        · rename_i open_
          rw [if_neg open_,if_neg open_]
          cases known : base64Digit byte alphabet with
          | none => rfl
          | some digit =>
            rw [known] at fed
            cases fed

def Settled (alphabet : Base64Alphabet) (text : List UInt8) (bytes : List UInt8) (read : Nat) : Prop :=
  feed alphabet .start (text.take read) = some ⟨bytes,[],read,read⟩ ∧ read ≤ text.length

structure Scanned (alphabet : Base64Alphabet) (limit : Nat) (text rest : List UInt8) (s : DecodeState) : Prop where
  position : s.index+rest.length = text.length
  here : text.drop s.index = rest
  fed : feed alphabet .start (text.take s.index) = some s
  settled : Settled alphabet text s.bytes s.read
  open_ : s.bytes.length < limit
  short : s.chunk.length < 4
  fits : s.chunk.length = 3 → s.bytes.length+2 ≤ limit

theorem feedAppend {first later} (fed : feed alphabet s first = some t) : feed alphabet s (first ++ later) = feed alphabet t later := by
  rw [feed,List.foldlM_append,show first.foldlM (feedByte alphabet) s = some t from fed]
  rfl

namespace Scanned

variable {text : List UInt8}

theorem start (some_ : limit ≠ 0) : Scanned alphabet limit text text .start :=
  ⟨Nat.zero_add _,rfl,rfl,⟨rfl,Nat.zero_le _⟩,Nat.pos_of_ne_zero some_,Nat.zero_lt_succ _,fun three => absurd three (by decide)⟩

theorem next (scanned : Scanned alphabet limit text (byte :: rest) s) : text.take (s.index+1) = text.take s.index ++ [byte] ∧ text.drop (s.index+1) = rest := by
  have dropped := scanned.here
  constructor
  · rw [List.take_add,dropped]
    rfl
  · rw [← List.drop_drop,dropped]
    rfl

theorem fedNext (scanned : Scanned alphabet limit text (byte :: rest) s) (fed : feedByte alphabet s byte = some t) :
    feed alphabet .start (text.take (s.index+1)) = some t := by
  rw [scanned.next.1,feedAppend scanned.fed]
  exact Option.bind_eq_some_iff.mpr ⟨t,fed,rfl⟩

theorem position' (scanned : Scanned alphabet limit text (byte :: rest) s) : s.index+1+rest.length = text.length := by
  rw [← scanned.position,List.length_cons]
  omega

theorem space (scanned : Scanned alphabet limit text (byte :: rest) s) (blank : isAsciiWhitespace byte = true) :
    Scanned alphabet limit text rest { s with index := s.index+1 } :=
  ⟨scanned.position',scanned.next.2,scanned.fedNext (feedSpace blank),scanned.settled,scanned.open_,scanned.short,scanned.fits⟩

theorem room (scanned : Scanned alphabet limit text rest s) {l} (enough : text.length ≤ l) : Roomy l s rest := by
  have begun : Roomy l .start (text.take s.index ++ rest) := by
    rw [← scanned.here,List.take_append_drop]
    exact ⟨by simpa [DecodeState.start] using enough,Nat.zero_lt_succ _⟩
  exact (loopFeeds .loose begun scanned.fed).2

theorem push (scanned : Scanned alphabet limit text (byte :: rest) s) (fed : feedByte alphabet s byte = some (s.push digit))
    (allowed : ¬(limit-s.bytes.length = 1 ∧ s.chunk.length = 2 ∨ limit-s.bytes.length = 2 ∧ s.chunk.length = 3)) :
    Settled alphabet text (s.push digit).bytes (s.push digit).read ∧ (s.push digit).bytes.length ≤ limit ∧
      (¬((s.push digit).chunk = [] ∧ (s.push digit).bytes.length = limit) → Scanned alphabet limit text rest (s.push digit)) := by
  have whole := scanned.fedNext fed
  have open_ := scanned.open_
  have fits := scanned.fits
  have short := scanned.short
  by_cases three : s.chunk.length = 3
  · have size : (chunkBytes (s.chunk ++ [digit])).length = 3 := by
      rw [chunkBytesLength (by simp [three])]
      simp [three]
    have pushed := pushWhole three digit
    have settled : Settled alphabet text (s.push digit).bytes (s.push digit).read := by
      rw [pushed] at whole ⊢
      exact ⟨whole,by have := scanned.position'; dsimp only; omega⟩
    have bound : (s.push digit).bytes.length ≤ limit := by
      rw [pushed]
      simp only [List.length_append,size]
      omega
    refine ⟨settled,bound,fun more => ?_⟩
    refine ⟨?_,?_,?_,settled,?_,?_,?_⟩
    · rw [pushed]
      exact scanned.position'
    · rw [pushed]
      exact scanned.next.2
    · rw [pushed] at whole ⊢
      exact whole
    · rw [pushed] at more bound ⊢
      exact Nat.lt_of_le_of_ne bound fun full => more ⟨rfl,full⟩
    · rw [pushed]
      exact Nat.zero_lt_succ _
    · rw [pushed]
      exact fun none => absurd none (by simp)
  · have pushed := pushPart three digit
    refine ⟨?_,?_,fun _ => ?_⟩
    · rw [pushed]
      exact scanned.settled
    · rw [pushed]
      exact Nat.le_of_lt open_
    · rw [pushed] at whole ⊢
      refine ⟨scanned.position',scanned.next.2,whole,scanned.settled,open_,?_,fun _ => ?_⟩
      · simp only [List.length_append,List.length_singleton]
        omega
      · simp only [List.length_append,List.length_singleton] at *
        omega

end Scanned

def Answers (alphabet : Base64Alphabet) (limit : Nat) (text : List UInt8) (full r : DecodedBytes) : Prop :=
  r.bytes.length ≤ limit ∧ (r.error = none → Settled alphabet text r.bytes r.read ∨ r = full ∧ r.read = text.length)

namespace Scanned

variable {text : List UInt8} {full : DecodedBytes}

theorem stop (scanned : Scanned alphabet limit text rest s) (error) : Answers alphabet limit text full (s.stop error) :=
  ⟨Nat.le_of_lt scanned.open_,fun _ => .inl scanned.settled⟩

theorem last (scanned : Scanned alphabet limit text rest s) {chunk} (size : chunk.length = s.chunk.length-1) :
    (s.bytes ++ chunk).length ≤ limit := by
  have open_ := scanned.open_
  have fits := scanned.fits
  have short := scanned.short
  simp only [List.length_append,size]
  omega

theorem finish (scanned : Scanned alphabet limit text [] s) : Answers alphabet limit text (Base64.finish handling s) (Base64.finish handling s) := by
  have all : s.index = text.length := scanned.position
  unfold Base64.finish
  split
  · exact ⟨Nat.le_of_lt scanned.open_,fun _ => .inr ⟨rfl,all⟩⟩
  · cases handling with
    | stopBeforePartial => exact scanned.stop _
    | strict => exact scanned.stop _
    | loose =>
      dsimp only
      split
      · exact ⟨scanned.last (chunkBytesLength (Nat.le_of_lt scanned.short)),fun _ => .inr ⟨rfl,all⟩⟩
      · exact scanned.stop _

theorem pad (scanned : Scanned alphabet limit text (byte :: rest) s) :
    Answers alphabet limit text (decodePadding handling s rest) (decodePadding handling s rest) := by
  have all := scanned.position'
  unfold decodePadding
  split
  · exact scanned.stop _
  · dsimp only
    split
    · exact scanned.stop _
    · split <;> split <;> try exact scanned.stop _
      all_goals
        cases decoded : decodeBase64Chunk s.chunk (handling = .strict) with
        | none => exact scanned.stop _
        | some chunk => exact ⟨scanned.last (decodedLength (Nat.le_of_lt scanned.short) decoded),fun _ => .inr ⟨rfl,all⟩⟩

-- The run lemma: the induction is on what is left of the text.
theorem answers {l} (enough : text.length ≤ l) (scanned : Scanned alphabet limit text rest s) :
    Answers alphabet limit text (decodeLoop alphabet handling l rest s) (decodeLoop alphabet handling limit rest s) := by
  induction rest generalizing s with
  | nil => exact scanned.finish
  | cons byte rest ih =>
    have room := scanned.room enough
    by_cases space : isAsciiWhitespace byte = true
    · rw [decodeLoop,decodeLoop,if_pos space,if_pos space]
      exact ih (scanned.space space)
    · by_cases equals : byte = 0x3d
      · rw [decodeLoop,decodeLoop,if_neg space,if_neg space,if_pos equals,if_pos equals]
        exact scanned.pad
      · cases known : base64Digit byte alphabet with
        | none =>
          rw [decodeLoop,decodeLoop,if_neg space,if_neg space,if_neg equals,if_neg equals,known]
          exact scanned.stop _
        | some digit =>
          have fed := feedDigit (s := s) (by simpa using space) equals known
          rw [(loopFeed handling room fed).1,decodeLoop,if_neg space,if_neg equals,known]
          dsimp only
          split
          · exact scanned.stop _
          · rename_i allowed
            obtain ⟨settled,bound,more⟩ := scanned.push fed allowed
            split
            · exact ⟨bound,fun _ => .inl settled⟩
            · rename_i goes
              exact ih (more goes)

end Scanned

end

end Bamts.Base64
