import Bamts.SpanMerge

/-! Simple case folding of code points, by a table of stepped ranges and a table of single code points, and the closing of a list
of code point ranges under it. -/
set_option linter.all false
namespace Bamts.Regexp
open SpanClosure

structure FoldRange where
  start : Nat
  stop : Nat
  step : Nat
  delta : Int
  deriving DecidableEq

def unicodeSimpleFoldRanges : List FoldRange := [
  ⟨0x41,0x5a,1,32⟩,⟨0xc0,0xd6,1,32⟩,⟨0xd8,0xde,1,32⟩,⟨0x100,0x12e,2,1⟩,⟨0x132,0x136,2,1⟩,⟨0x139,0x147,2,1⟩,
  ⟨0x14a,0x176,2,1⟩,⟨0x179,0x17d,2,1⟩,⟨0x1a0,0x1a4,2,1⟩,⟨0x1cb,0x1db,2,1⟩,⟨0x1de,0x1ee,2,1⟩,⟨0x1f8,0x21e,2,1⟩,
  ⟨0x222,0x232,2,1⟩,⟨0x246,0x24e,2,1⟩,⟨0x388,0x38a,1,37⟩,⟨0x391,0x3a1,1,32⟩,⟨0x3a3,0x3ab,1,32⟩,⟨0x3d8,0x3ee,2,1⟩,
  ⟨0x3fd,0x3ff,1,-130⟩,⟨0x400,0x40f,1,80⟩,⟨0x410,0x42f,1,32⟩,⟨0x460,0x480,2,1⟩,⟨0x48a,0x4be,2,1⟩,⟨0x4c1,0x4cd,2,1⟩,
  ⟨0x4d0,0x52e,2,1⟩,⟨0x531,0x556,1,48⟩,⟨0x10a0,0x10c5,1,7264⟩,⟨0x13f8,0x13fd,1,-8⟩,⟨0x1c90,0x1cba,1,-3008⟩,⟨0x1cbd,0x1cbf,1,-3008⟩,
  ⟨0x1e00,0x1e94,2,1⟩,⟨0x1ea0,0x1efe,2,1⟩,⟨0x1f08,0x1f0f,1,-8⟩,⟨0x1f18,0x1f1d,1,-8⟩,⟨0x1f28,0x1f2f,1,-8⟩,⟨0x1f38,0x1f3f,1,-8⟩,
  ⟨0x1f48,0x1f4d,1,-8⟩,⟨0x1f59,0x1f5f,2,-8⟩,⟨0x1f68,0x1f6f,1,-8⟩,⟨0x1f88,0x1f8f,1,-8⟩,⟨0x1f98,0x1f9f,1,-8⟩,⟨0x1fa8,0x1faf,1,-8⟩,
  ⟨0x1fc8,0x1fcb,1,-86⟩,⟨0x2160,0x216f,1,16⟩,⟨0x24b6,0x24cf,1,26⟩,⟨0x2c00,0x2c2f,1,48⟩,⟨0x2c67,0x2c6b,2,1⟩,⟨0x2c80,0x2ce2,2,1⟩,
  ⟨0xa640,0xa66c,2,1⟩,⟨0xa680,0xa69a,2,1⟩,⟨0xa722,0xa72e,2,1⟩,⟨0xa732,0xa76e,2,1⟩,⟨0xa77e,0xa786,2,1⟩,⟨0xa796,0xa7a8,2,1⟩,
  ⟨0xa7b4,0xa7c2,2,1⟩,⟨0xa7cc,0xa7da,2,1⟩,⟨0xab70,0xabbf,1,-38864⟩,⟨0xff21,0xff3a,1,32⟩,⟨0x10400,0x10427,1,40⟩,⟨0x104b0,0x104d3,1,40⟩,
  ⟨0x10570,0x10594,2,39⟩,⟨0x10571,0x10579,2,39⟩,⟨0x1057d,0x10589,2,39⟩,⟨0x1058d,0x10591,2,39⟩,⟨0x10c80,0x10cb2,1,64⟩,⟨0x10d50,0x10d65,1,32⟩,
  ⟨0x118a0,0x118bf,1,32⟩,⟨0x16e40,0x16e5f,1,32⟩,⟨0x16ea0,0x16eb8,1,27⟩,⟨0x1e900,0x1e921,1,34⟩]

def unicodeSimpleFoldSingletons : List (Nat × Nat) := [
  (0xb5,0x3bc),(0x178,0xff),(0x17f,0x73),(0x181,0x253),(0x182,0x183),(0x184,0x185),(0x186,0x254),(0x187,0x188),(0x189,0x256),
  (0x18a,0x257),(0x18b,0x18c),(0x18e,0x1dd),(0x18f,0x259),(0x190,0x25b),(0x191,0x192),(0x193,0x260),(0x194,0x263),(0x196,0x269),
  (0x197,0x268),(0x198,0x199),(0x19c,0x26f),(0x19d,0x272),(0x19f,0x275),(0x1a6,0x280),(0x1a7,0x1a8),(0x1a9,0x283),(0x1ac,0x1ad),
  (0x1ae,0x288),(0x1af,0x1b0),(0x1b1,0x28a),(0x1b2,0x28b),(0x1b3,0x1b4),(0x1b5,0x1b6),(0x1b7,0x292),(0x1b8,0x1b9),(0x1bc,0x1bd),
  (0x1c4,0x1c6),(0x1c5,0x1c6),(0x1c7,0x1c9),(0x1c8,0x1c9),(0x1ca,0x1cc),(0x1f1,0x1f3),(0x1f2,0x1f3),(0x1f4,0x1f5),(0x1f6,0x195),
  (0x1f7,0x1bf),(0x220,0x19e),(0x23a,0x2c65),(0x23b,0x23c),(0x23d,0x19a),(0x23e,0x2c66),(0x241,0x242),(0x243,0x180),(0x244,0x289),
  (0x245,0x28c),(0x345,0x3b9),(0x370,0x371),(0x372,0x373),(0x376,0x377),(0x37f,0x3f3),(0x386,0x3ac),(0x38c,0x3cc),(0x38e,0x3cd),
  (0x38f,0x3ce),(0x3c2,0x3c3),(0x3cf,0x3d7),(0x3d0,0x3b2),(0x3d1,0x3b8),(0x3d5,0x3c6),(0x3d6,0x3c0),(0x3f0,0x3ba),(0x3f1,0x3c1),
  (0x3f4,0x3b8),(0x3f5,0x3b5),(0x3f7,0x3f8),(0x3f9,0x3f2),(0x3fa,0x3fb),(0x4c0,0x4cf),(0x10c7,0x2d27),(0x10cd,0x2d2d),(0x1c80,0x432),
  (0x1c81,0x434),(0x1c82,0x43e),(0x1c83,0x441),(0x1c84,0x442),(0x1c85,0x442),(0x1c86,0x44a),(0x1c87,0x463),(0x1c88,0xa64b),(0x1c89,0x1c8a),
  (0x1e9b,0x1e61),(0x1e9e,0xdf),(0x1fb8,0x1fb0),(0x1fb9,0x1fb1),(0x1fba,0x1f70),(0x1fbb,0x1f71),(0x1fbc,0x1fb3),(0x1fbe,0x3b9),(0x1fcc,0x1fc3),
  (0x1fd3,0x390),(0x1fd8,0x1fd0),(0x1fd9,0x1fd1),(0x1fda,0x1f76),(0x1fdb,0x1f77),(0x1fe3,0x3b0),(0x1fe8,0x1fe0),(0x1fe9,0x1fe1),(0x1fea,0x1f7a),
  (0x1feb,0x1f7b),(0x1fec,0x1fe5),(0x1ff8,0x1f78),(0x1ff9,0x1f79),(0x1ffa,0x1f7c),(0x1ffb,0x1f7d),(0x1ffc,0x1ff3),(0x2126,0x3c9),(0x212a,0x6b),
  (0x212b,0xe5),(0x2132,0x214e),(0x2183,0x2184),(0x2c60,0x2c61),(0x2c62,0x26b),(0x2c63,0x1d7d),(0x2c64,0x27d),(0x2c6d,0x251),(0x2c6e,0x271),
  (0x2c6f,0x250),(0x2c70,0x252),(0x2c72,0x2c73),(0x2c75,0x2c76),(0x2c7e,0x23f),(0x2c7f,0x240),(0x2ceb,0x2cec),(0x2ced,0x2cee),(0x2cf2,0x2cf3),
  (0xa779,0xa77a),(0xa77b,0xa77c),(0xa77d,0x1d79),(0xa78b,0xa78c),(0xa78d,0x265),(0xa790,0xa791),(0xa792,0xa793),(0xa7aa,0x266),(0xa7ab,0x25c),
  (0xa7ac,0x261),(0xa7ad,0x26c),(0xa7ae,0x26a),(0xa7b0,0x29e),(0xa7b1,0x287),(0xa7b2,0x29d),(0xa7b3,0xab53),(0xa7c4,0xa794),(0xa7c5,0x282),
  (0xa7c6,0x1d8e),(0xa7c7,0xa7c8),(0xa7c9,0xa7ca),(0xa7cb,0x264),(0xa7dc,0x19b),(0xa7f5,0xa7f6),(0xfb05,0xfb06),(0x10595,0x105bc)]

def offsetCodePoint (value : Nat) (delta : Int) : Option Nat :=
  if delta < 0 then if delta.natAbs ≤ value then some (value-delta.natAbs) else none
  else if value+delta.toNat < 2^32 then some (value+delta.toNat) else none

namespace FoldRange

def hits (range : FoldRange) (value : Nat) : Bool :=
  decide (range.start ≤ value) && decide (value ≤ range.stop) && decide ((value-range.start) % range.step = 0)

def sources (range : FoldRange) : List Nat := (List.range ((range.stop-range.start)/range.step+1)).map fun index => range.start+index*range.step

def target (range : FoldRange) (source : Nat) : Nat := (offsetCodePoint source range.delta).getD source

end FoldRange

-- The binary search of the source finds the entry of its key, for the keys are in order and distinct.
def singletonTarget (value : Nat) : Option Nat := (unicodeSimpleFoldSingletons.find? fun entry => decide (entry.1 = value)).map Prod.snd

def unicodeSimpleFold (value : Nat) : Nat :=
  (((unicodeSimpleFoldRanges.find? (FoldRange.hits · value)).bind fun range => offsetCodePoint value range.delta).or (singletonTarget value)).getD value

def segmentHit (result : List Span) (range : FoldRange) : Bool :=
  range.sources.any fun source => contains result source || contains result (range.target source)

def targetSpan (start stop : Nat) : Span := if start ≤ stop then (start,stop) else (stop,start)

def closeRange (work : Work) (range : FoldRange) : Work :=
  if segmentHit work.result range then
    let work := push work (range.start,range.stop)
    match offsetCodePoint range.start range.delta,offsetCodePoint range.stop range.delta with
    | some start,some stop => push work (targetSpan start stop)
    | _,_ => work
  else work

def pushOne (work : Work) (value : Nat) : Work := if !contains work.result value then ⟨work.result ++ [(value,value)],true⟩ else work

def closeSingleton (work : Work) (entry : Nat × Nat) : Work :=
  if contains work.result entry.1 || contains work.result entry.2 then [entry.1,entry.2].foldl pushOne work else work

def closeRound (ranges : List Span) : Work :=
  unicodeSimpleFoldSingletons.foldl closeSingleton (unicodeSimpleFoldRanges.foldl closeRange ⟨ranges,false⟩)

def closeLoop : Nat → List Span → Option (List Span)
  | 0, _ => none
  | fuel+1, result => if (closeRound result).changed then closeLoop fuel (closeRound result).result else some (closeRound result).result

def unicodeSimpleFoldClosure (fuel : Nat) (ranges : List Span) : Option (List Span) := (closeLoop fuel ranges).map merge

end Bamts.Regexp
