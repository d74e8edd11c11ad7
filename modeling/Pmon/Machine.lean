import Pmon.MaskTable
import Pmon.Go

/-!
# The instruction table and the branch classifiers

The table `distbl`, the search `get_distbl` with its cache of one entry, and the classifiers of the
tracer. Variants of other boards differ in coprocessor 2 only.
-/

namespace Pmon.Machine
open Go

inductive Optype where
  | rdRsRt | rtRsImm | off | rsRtOff | rsOff | none | rtRd | cofun | rdRt | rsRt | target | jalr
  | rs | rdRtSft | loadStore | rtImm | rd | rdRtRs | rdRs | rtRsSimm | rsSimm | rtSimm | jr
  | rtC0 | rtC1 | rtCn | rtCc1 | ldstc0 | ldstc1 | ldstcn | word | rtC2 | rtCc2 | bpcode
  | cacheOp | cpOff | store | storec1 | storecn | ftFsFdD | ftFsFdS | fsFdD | fsFdS | fsFdW
  | fsFdL | ftFsD | ftFsS | rtRdTo | rtCc1To | rtCnTo | rtC0To | rtC1To
  deriving DecidableEq

structure Distbl where
  str : String
  mask : BitVec 32
  code : BitVec 32
  type : Optype

def wordRow : Distbl := ⟨".word",0x00000000,0x00000000,.word⟩

def instructions : List Distbl := [⟨"nop",0xffffffff,0x00000000,.none⟩,
  ⟨"li",0xffe00000,0x24000000,.rtSimm⟩,
  ⟨"li",0xffe00000,0x34000000,.rtImm⟩,
  ⟨"move",0xfc1f07ff,0x00000021,.rdRs⟩,
  ⟨"move",0xfc1f07ff,0x00000025,.rdRs⟩,
  ⟨"neg",0xffe007ff,0x00000022,.rdRt⟩,
  ⟨"negu",0xffe007ff,0x00000023,.rdRt⟩,
  ⟨"dmove",0xfc1f07ff,0x0000002d,.rdRs⟩,
  ⟨"dneg",0xffe007ff,0x0000002e,.rdRt⟩,
  ⟨"dnegu",0xffe007ff,0x0000002f,.rdRt⟩,
  ⟨"not",0xfc1f07ff,0x00000027,.rdRs⟩,
  ⟨"b",0xffff0000,0x10000000,.off⟩,
  ⟨"b",0xffff0000,0x04010000,.off⟩,
  ⟨"bal",0xffff0000,0x04110000,.off⟩,
  ⟨"add",0xfc0007ff,0x00000020,.rdRsRt⟩,
  ⟨"addi",0xfc000000,0x20000000,.rtRsSimm⟩,
  ⟨"addiu",0xfc000000,0x24000000,.rtRsSimm⟩,
  ⟨"addu",0xfc0007ff,0x00000021,.rdRsRt⟩,
  ⟨"dadd",0xfc0007ff,0x0000002c,.rdRsRt⟩,
  ⟨"daddi",0xfc000000,0x60000000,.rtRsSimm⟩,
  ⟨"daddiu",0xfc000000,0x64000000,.rtRsSimm⟩,
  ⟨"daddu",0xfc0007ff,0x0000002d,.rdRsRt⟩,
  ⟨"and",0xfc0007ff,0x00000024,.rdRsRt⟩,
  ⟨"andi",0xfc000000,0x30000000,.rtRsImm⟩,
  ⟨"bc0f",0xffff0000,0x41000000,.cpOff⟩,
  ⟨"bc1f",0xffff0000,0x45000000,.cpOff⟩,
  ⟨"bc2f",0xffff0000,0x49000000,.cpOff⟩,
  ⟨"bc3f",0xffff0000,0x4d000000,.cpOff⟩,
  ⟨"bc0t",0xffff0000,0x41010000,.cpOff⟩,
  ⟨"bc1t",0xffff0000,0x45010000,.cpOff⟩,
  ⟨"bc2t",0xffff0000,0x49010000,.cpOff⟩,
  ⟨"bc3t",0xffff0000,0x4d010000,.cpOff⟩,
  ⟨"bc0fl",0xffff0000,0x41020000,.cpOff⟩,
  ⟨"bc1fl",0xffff0000,0x45020000,.cpOff⟩,
  ⟨"bc2fl",0xffff0000,0x49020000,.cpOff⟩,
  ⟨"bc3fl",0xffff0000,0x4d020000,.cpOff⟩,
  ⟨"bc0tl",0xffff0000,0x41030000,.cpOff⟩,
  ⟨"bc1tl",0xffff0000,0x45030000,.cpOff⟩,
  ⟨"bc2tl",0xffff0000,0x49030000,.cpOff⟩,
  ⟨"bc3tl",0xffff0000,0x4d030000,.cpOff⟩,
  ⟨"beq",0xfc000000,0x10000000,.rsRtOff⟩,
  ⟨"bne",0xfc000000,0x14000000,.rsRtOff⟩,
  ⟨"blez",0xfc1f0000,0x18000000,.rsOff⟩,
  ⟨"bgtz",0xfc1f0000,0x1c000000,.rsOff⟩,
  ⟨"beql",0xfc000000,0x50000000,.rsRtOff⟩,
  ⟨"bnel",0xfc000000,0x54000000,.rsRtOff⟩,
  ⟨"blezl",0xfc1f0000,0x58000000,.rsOff⟩,
  ⟨"bgtzl",0xfc1f0000,0x5c000000,.rsOff⟩,
  ⟨"bltz",0xfc1f0000,0x04000000,.rsOff⟩,
  ⟨"bgez",0xfc1f0000,0x04010000,.rsOff⟩,
  ⟨"bltzl",0xfc1f0000,0x04020000,.rsOff⟩,
  ⟨"bgezl",0xfc1f0000,0x04030000,.rsOff⟩,
  ⟨"bltzal",0xfc1f0000,0x04100000,.rsOff⟩,
  ⟨"bgezal",0xfc1f0000,0x04110000,.rsOff⟩,
  ⟨"bltzall",0xfc1f0000,0x04120000,.rsOff⟩,
  ⟨"bgezall",0xfc1f0000,0x04130000,.rsOff⟩,
  ⟨"break",0xfc00003f,0x0000000d,.bpcode⟩,
  ⟨"cache",0xfc000000,0xbc000000,.cacheOp⟩,
  ⟨"cfc0",0xffe007ff,0x40400000,.rtRd⟩,
  ⟨"cfc1",0xffe007ff,0x44400000,.rtCc1⟩,
  ⟨"cfc2",0xffe007ff,0x48400000,.rtCn⟩,
  ⟨"cfc3",0xffe007ff,0x4c400000,.rtCn⟩,
  ⟨"tlbp",0xffffffff,0x42000008,.none⟩,
  ⟨"tlbr",0xffffffff,0x42000001,.none⟩,
  ⟨"tlbwi",0xffffffff,0x42000002,.none⟩,
  ⟨"tlbwr",0xffffffff,0x42000006,.none⟩,
  ⟨"rfe",0xffffffff,0x42000010,.none⟩,
  ⟨"eret",0xffffffff,0x42000018,.none⟩,
  ⟨"cop0",0xfe000000,0x42000000, .cofun⟩,
  ⟨"add.s",0xfee0003f,0x46000000,.ftFsFdS⟩,
  ⟨"add.d",0xfee0003f,0x46200000,.ftFsFdD⟩,
  ⟨"sub.s",0xfee0003f,0x46000001,.ftFsFdS⟩,
  ⟨"sub.d",0xfee0003f,0x46200001,.ftFsFdD⟩,
  ⟨"mul.s",0xfee0003f,0x46000002,.ftFsFdS⟩,
  ⟨"mul.d",0xfee0003f,0x46200002,.ftFsFdD⟩,
  ⟨"div.s",0xfee0003f,0x46000003,.ftFsFdS⟩,
  ⟨"div.d",0xfee0003f,0x46200003,.ftFsFdD⟩,
  ⟨"abs.s",0xfee0003f,0x46000005,.fsFdS⟩,
  ⟨"abs.d",0xfee0003f,0x46200005,.fsFdD⟩,
  ⟨"mov.s",0xfee0003f,0x46000006,.fsFdS⟩,
  ⟨"mov.d",0xfee0003f,0x46200006,.fsFdD⟩,
  ⟨"neg.s",0xfee0003f,0x46000007,.fsFdS⟩,
  ⟨"neg.d",0xfee0003f,0x46200007,.fsFdD⟩,
  ⟨"sqrt.d",0xfee0003f,0x46200004,.fsFdD⟩,
  ⟨"sqrt.s",0xfee0003f,0x46000004,.fsFdS⟩,
  ⟨"c.f.s",0xfee0003f,0x46000030,.ftFsS⟩,
  ⟨"c.f.d",0xfee0003f,0x46200030,.ftFsD⟩,
  ⟨"c.un.s",0xfee0003f,0x46000031,.ftFsS⟩,
  ⟨"c.un.d",0xfee0003f,0x46200031,.ftFsD⟩,
  ⟨"c.eq.s",0xfee0003f,0x46000032,.ftFsS⟩,
  ⟨"c.eq.d",0xfee0003f,0x46200032,.ftFsD⟩,
  ⟨"c.ueq.s",0xfee0003f,0x46000033,.ftFsS⟩,
  ⟨"c.ueq.d",0xfee0003f,0x46200033,.ftFsD⟩,
  ⟨"c.olt.s",0xfee0003f,0x46000034,.ftFsS⟩,
  ⟨"c.olt.d",0xfee0003f,0x46200034,.ftFsD⟩,
  ⟨"c.ult.s",0xfee0003f,0x46000035,.ftFsS⟩,
  ⟨"c.ult.d",0xfee0003f,0x46200035,.ftFsD⟩,
  ⟨"c.ole.s",0xfee0003f,0x46000036,.ftFsS⟩,
  ⟨"c.ole.d",0xfee0003f,0x46200036,.ftFsD⟩,
  ⟨"c.ule.s",0xfee0003f,0x46000037,.ftFsS⟩,
  ⟨"c.ule.d",0xfee0003f,0x46200037,.ftFsD⟩,
  ⟨"c.sf.s",0xfee0003f,0x46000038,.ftFsS⟩,
  ⟨"c.sf.d",0xfee0003f,0x46200038,.ftFsD⟩,
  ⟨"c.ngle.s",0xfee0003f,0x46000039,.ftFsS⟩,
  ⟨"c.ngle.d",0xfee0003f,0x46200039,.ftFsD⟩,
  ⟨"c.seq.s",0xfee0003f,0x4600003a,.ftFsS⟩,
  ⟨"c.seq.d",0xfee0003f,0x4620003a,.ftFsD⟩,
  ⟨"c.ngl.s",0xfee0003f,0x4600003b,.ftFsS⟩,
  ⟨"c.ngl.d",0xfee0003f,0x4620003b,.ftFsD⟩,
  ⟨"c.lt.s",0xfee0003f,0x4600003c,.ftFsS⟩,
  ⟨"c.lt.d",0xfee0003f,0x4620003c,.ftFsD⟩,
  ⟨"c.nge.s",0xfee0003f,0x4600003d,.ftFsS⟩,
  ⟨"c.nge.d",0xfee0003f,0x4620003d,.ftFsD⟩,
  ⟨"c.le.s",0xfee0003f,0x4600003e,.ftFsS⟩,
  ⟨"c.le.d",0xfee0003f,0x4620003e,.ftFsD⟩,
  ⟨"c.ngt.s",0xfee0003f,0x4600003f,.ftFsS⟩,
  ⟨"c.ngt.d",0xfee0003f,0x4620003f,.ftFsD⟩,
  ⟨"cvt.s.w",0xfee0003f,0x46800020,.fsFdW⟩,
  ⟨"cvt.s.l",0xfee0003f,0x46a00020,.fsFdL⟩,
  ⟨"cvt.s.d",0xfee0003f,0x46200020,.fsFdD⟩,
  ⟨"cvt.d.s",0xfee0003f,0x46000021,.fsFdS⟩,
  ⟨"cvt.d.w",0xfee0003f,0x46800021,.fsFdW⟩,
  ⟨"cvt.d.l",0xfee0003f,0x46a00021,.fsFdL⟩,
  ⟨"cvt.w.d",0xfee0003f,0x46200024,.fsFdD⟩,
  ⟨"cvt.w.s",0xfee0003f,0x46000024,.fsFdS⟩,
  ⟨"cvt.l.d",0xfee0003f,0x46200025,.fsFdD⟩,
  ⟨"cvt.l.s",0xfee0003f,0x46000025,.fsFdS⟩,
  ⟨"ceil.l.d",0xffff003f,0x4620000a,.fsFdL⟩,
  ⟨"ceil.l.s",0xffff003f,0x4600000a,.fsFdL⟩,
  ⟨"ceil.w.d",0xffff003f,0x4620000e,.fsFdW⟩,
  ⟨"ceil.w.s",0xffff003f,0x4600000e,.fsFdW⟩,
  ⟨"floor.l.d",0xffff003f,0x4620000b,.fsFdL⟩,
  ⟨"floor.l.s",0xffff003f,0x4600000b,.fsFdL⟩,
  ⟨"floor.w.d",0xffff003f,0x4620000f,.fsFdW⟩,
  ⟨"floor.w.s",0xffff003f,0x4600000f,.fsFdW⟩,
  ⟨"round.l.d",0xffff003f,0x46200008,.fsFdL⟩,
  ⟨"round.l.s",0xffff003f,0x46000008,.fsFdL⟩,
  ⟨"round.w.d",0xffff003f,0x4620000c,.fsFdW⟩,
  ⟨"round.w.s",0xffff003f,0x4600000c,.fsFdW⟩,
  ⟨"trunc.l.d",0xffff003f,0x46200009,.fsFdL⟩,
  ⟨"trunc.l.s",0xffff003f,0x46000009,.fsFdL⟩,
  ⟨"trunc.w.d",0xffff003f,0x4620000d,.fsFdW⟩,
  ⟨"trunc.w.s",0xffff003f,0x4600000d,.fsFdW⟩,
  ⟨"cop1",0xfe000000,0x46000000, .cofun⟩,
  ⟨"cop2",0xfe000000,0x4a000000, .cofun⟩,
  ⟨"cop3",0xfe000000,0x4e000000, .cofun⟩,
  ⟨"ctc0",0xffe007ff,0x40c00000,.rtRdTo⟩,
  ⟨"ctc1",0xffe007ff,0x44c00000,.rtCc1To⟩,
  ⟨"ctc2",0xffe007ff,0x48c00000,.rtCnTo⟩,
  ⟨"ctc3",0xffe007ff,0x4cc00000,.rtCnTo⟩,
  ⟨"div",0xfc00ffff,0x0000001a,.rsRt⟩,
  ⟨"divu",0xfc00ffff,0x0000001b,.rsRt⟩,
  ⟨"ddiv",0xfc00ffff,0x0000001e,.rsRt⟩,
  ⟨"ddivu",0xfc00ffff,0x0000001f,.rsRt⟩,
  ⟨"j",0xfc000000,0x08000000,.target⟩,
  ⟨"jal",0xfc000000,0x0c000000,.target⟩,
  ⟨"jalr",0xfc1f07ff,0x00000009,.jalr⟩,
  ⟨"jr",0xfc1fffff,0x00000008,.jr⟩,
  ⟨"lui",0xfc000000,0x3c000000,.rtImm⟩,
  ⟨"lb",0xfc000000,0x80000000,.loadStore⟩,
  ⟨"lbu",0xfc000000,0x90000000,.loadStore⟩,
  ⟨"lh",0xfc000000,0x84000000,.loadStore⟩,
  ⟨"lhu",0xfc000000,0x94000000,.loadStore⟩,
  ⟨"lw",0xfc000000,0x8c000000,.loadStore⟩,
  ⟨"lwl",0xfc000000,0x88000000,.loadStore⟩,
  ⟨"lwr",0xfc000000,0x98000000,.loadStore⟩,
  ⟨"lwu",0xfc000000,0x9c000000,.loadStore⟩,
  ⟨"ldl",0xfc000000,0x68000000,.loadStore⟩,
  ⟨"ldr",0xfc000000,0x6c000000,.loadStore⟩,
  ⟨"ll",0xfc000000,0xc0000000,.loadStore⟩,
  ⟨"lwc1",0xfc000000,0xc4000000,.ldstc1⟩,
  ⟨"lwc2",0xfc000000,0xc8000000,.ldstcn⟩,
  ⟨"lwc3",0xfc000000,0xcc000000,.ldstcn⟩,
  ⟨"lld",0xfc000000,0xd0000000,.loadStore⟩,
  ⟨"ldc1",0xfc000000,0xd4000000,.ldstc1⟩,
  ⟨"ldc2",0xfc000000,0xd8000000,.ldstcn⟩,
  ⟨"ld",0xfc000000,0xdc000000,.loadStore⟩,
  ⟨"mfc0",0xffe007ff,0x40000000,.rtC0⟩,
  ⟨"mfc1",0xffe007ff,0x44000000,.rtC1⟩,
  ⟨"mfc2",0xffe007ff,0x48000000,.rtCn⟩,
  ⟨"mfc3",0xffe007ff,0x4c000000,.rtCn⟩,
  ⟨"dmfc0",0xffe007ff,0x40200000,.rtC0⟩,
  ⟨"dmfc1",0xffe007ff,0x44200000,.rtC1⟩,
  ⟨"dmfc2",0xffe007ff,0x48200000,.rtCn⟩,
  ⟨"dmfc3",0xffe007ff,0x4c200000,.rtCn⟩,
  ⟨"mtc0",0xffe007ff,0x40800000,.rtC0To⟩,
  ⟨"mtc1",0xffe007ff,0x44800000,.rtC1To⟩,
  ⟨"mtc2",0xffe007ff,0x48800000,.rtCnTo⟩,
  ⟨"mtc3",0xffe007ff,0x4c800000,.rtCnTo⟩,
  ⟨"dmtc0",0xffe007ff,0x40a00000,.rtC0To⟩,
  ⟨"dmtc1",0xffe007ff,0x44a00000,.rtC1To⟩,
  ⟨"dmtc2",0xffe007ff,0x48a00000,.rtCnTo⟩,
  ⟨"dmtc3",0xffe007ff,0x4ca00000,.rtCnTo⟩,
  ⟨"mfhi",0xffff07ff,0x00000010,.rd⟩,
  ⟨"mflo",0xffff07ff,0x00000012,.rd⟩,
  ⟨"mthi",0xfc1fffff,0x00000011,.rs⟩,
  ⟨"mtlo",0xfc1fffff,0x00000013,.rs⟩,
  ⟨"mult",0xfc00ffff,0x00000018,.rsRt⟩,
  ⟨"multu",0xfc00ffff,0x00000019,.rsRt⟩,
  ⟨"dmult",0xfc00ffff,0x0000001c,.rsRt⟩,
  ⟨"dmultu",0xfc00ffff,0x0000001d,.rsRt⟩,
  ⟨"madd16",0xfc00ffff,0x00000028,.rsRt⟩,
  ⟨"dmadd16",0xfc00ffff,0x00000020,.rsRt⟩,
  ⟨"standby",0xffffffff,0x42000021,.none⟩,
  ⟨"suspend",0xffffffff,0x42000022,.none⟩,
  ⟨"hibernate",0xffffffff,0x42000023,.none⟩,
  ⟨"nor",0xfc0007ff,0x00000027,.rdRsRt⟩,
  ⟨"or",0xfc0007ff,0x00000025,.rdRsRt⟩,
  ⟨"ori",0xfc000000,0x34000000,.rtRsImm⟩,
  ⟨"sb",0xfc000000,0xa0000000,.store⟩,
  ⟨"sh",0xfc000000,0xa4000000,.store⟩,
  ⟨"swl",0xfc000000,0xa8000000,.store⟩,
  ⟨"sw",0xfc000000,0xac000000,.store⟩,
  ⟨"sdl",0xfc000000,0xb0000000,.store⟩,
  ⟨"sdr",0xfc000000,0xb4000000,.store⟩,
  ⟨"swr",0xfc000000,0xb8000000,.store⟩,
  ⟨"sc",0xfc000000,0xe0000000,.store⟩,
  ⟨"swc1",0xfc000000,0xe4000000,.storec1⟩,
  ⟨"swc2",0xfc000000,0xe8000000,.storecn⟩,
  ⟨"swc3",0xfc000000,0xec000000,.storecn⟩,
  ⟨"scd",0xfc000000,0xf0000000,.store⟩,
  ⟨"sdc1",0xfc000000,0xf4000000,.storec1⟩,
  ⟨"sdc2",0xfc000000,0xf8000000,.storecn⟩,
  ⟨"sd",0xfc000000,0xfc000000,.store⟩,
  ⟨"sll",0xffe0003f,0x00000000,.rdRtSft⟩,
  ⟨"sllv",0xfc0007ff,0x00000004,.rdRtRs⟩,
  ⟨"dsll",0xffe0003f,0x00000038,.rdRtSft⟩,
  ⟨"dsllv",0xfc0007ff,0x00000014,.rdRtRs⟩,
  ⟨"dsll32",0xfc0007ff,0x0000003c,.rdRtRs⟩,
  ⟨"slt",0xfc0007ff,0x0000002a,.rdRsRt⟩,
  ⟨"slti",0xfc000000,0x28000000,.rtRsSimm⟩,
  ⟨"sltiu",0xfc000000,0x2c000000,.rtRsSimm⟩,
  ⟨"sltu",0xfc0007ff,0x0000002b,.rdRsRt⟩,
  ⟨"sra",0xffe0003f,0x00000003,.rdRtSft⟩,
  ⟨"srav",0xfc0007ff,0x00000007,.rdRtRs⟩,
  ⟨"dsra",0xffe0003f,0x0000003b,.rdRtSft⟩,
  ⟨"dsrav",0xfc0007ff,0x00000017,.rdRtRs⟩,
  ⟨"dsra32",0xfc0007ff,0x0000003f,.rdRtRs⟩,
  ⟨"srl",0xffe0003f,0x00000002,.rdRtSft⟩,
  ⟨"srlv",0xfc0007ff,0x00000006,.rdRtRs⟩,
  ⟨"dsrl",0xffe0003f,0x0000003a,.rdRtSft⟩,
  ⟨"dsrlv",0xfc0007ff,0x00000016,.rdRtRs⟩,
  ⟨"dsrl32",0xfc0007ff,0x0000003e,.rdRtRs⟩,
  ⟨"sub",0xfc0007ff,0x00000022,.rdRsRt⟩,
  ⟨"subu",0xfc0007ff,0x00000023,.rdRsRt⟩,
  ⟨"dsub",0xfc0007ff,0x0000002e,.rdRsRt⟩,
  ⟨"dsubu",0xfc0007ff,0x0000002f,.rdRsRt⟩,
  ⟨"teqi",0xfc1f0000,0x040c0000,.rsSimm⟩,
  ⟨"teq",0xfc00003f,0x00000034,.rsRt⟩,
  ⟨"tgei",0xfc1f0000,0x04080000,.rsSimm⟩,
  ⟨"tge",0xfc00003f,0x00000030,.rsRt⟩,
  ⟨"tgeiu",0xfc1f0000,0x04090000,.rsSimm⟩,
  ⟨"tgeu",0xfc00003f,0x00000031,.rsRt⟩,
  ⟨"tlti",0xfc1f0000,0x040a0000,.rsSimm⟩,
  ⟨"tlt",0xfc00003f,0x00000032,.rsRt⟩,
  ⟨"tltiu",0xfc1f0000,0x040b0000,.rsSimm⟩,
  ⟨"tltu",0xfc00003f,0x00000033,.rsRt⟩,
  ⟨"tnei",0xfc1f0000,0x040e0000,.rsSimm⟩,
  ⟨"tne",0xfc00003f,0x00000036,.rsRt⟩,
  ⟨"sync",0xffffffff,0x0000000f,.none⟩,
  ⟨"syscall",0xffffffff,0x0000000c,.none⟩,
  ⟨"xor",0xfc0007ff,0x00000026,.rdRsRt⟩,
  ⟨"xori",0xfc000000,0x38000000,.rtRsImm⟩]

def distbl : List Distbl := instructions++[wordRow]

def scanDistbl (bits : BitVec 32) : Distbl :=
  (MaskTable.lookup Distbl.mask Distbl.code distbl bits).getD wordRow

def getDistbl (last : Option (BitVec 32 × Distbl)) (bits : BitVec 32) :
    Distbl × Option (BitVec 32 × Distbl) :=
  match last with
  | some (lastbits,lastpt) =>
    if bits=lastbits then (lastpt,last) else (scanDistbl bits,some (bits,scanDistbl bits))
  | none => (scanDistbl bits,some (bits,scanDistbl bits))

/-- The rows that calls of `get_distbl` return, one after another. -/
def lookups (last : Option (BitVec 32 × Distbl)) : List (BitVec 32) → List Distbl
  | [] => []
  | bits::l => (getDistbl last bits).1::lookups (getDistbl last bits).2 l

/-- In every sequence of calls the cache returns what a search of the table does. -/
theorem lookups_scanned (words : List (BitVec 32)) : lookups none words=words.map scanDistbl := by
  have hrun : ∀ last, (∀ e∈last, e.2=scanDistbl e.1) →
      lookups last words=words.map scanDistbl := by
    induction words with
    | nil => exact fun _ _ => rfl
    | cons bits words ih =>
      intro last h
      have hnew := ih (some (bits,scanDistbl bits)) fun e he => Option.some.inj he ▸ rfl
      cases last with
      | none => exact congrArg (scanDistbl bits :: ·) hnew
      | some e =>
        rw [lookups,getDistbl,List.map_cons]
        split
        · rename_i heq
          rw [ih _ h,h e rfl,heq]
        · rw [hnew]
  exact hrun none fun e he => absurd he (Option.not_mem_none e)

theorem scanDistbl_matches (bits : BitVec 32) :
    scanDistbl bits ∈ distbl ∧ bits &&& (scanDistbl bits).mask = (scanDistbl bits).code := by
  have hlast : wordRow∈distbl := List.mem_append_right _ List.mem_cons_self
  have hsome := MaskTable.lookup_isSome Distbl.mask Distbl.code hlast rfl rfl bits
  obtain ⟨r,hr⟩ := Option.isSome_iff_exists.mp hsome
  rw [scanDistbl,hr]
  exact MaskTable.lookup_matches Distbl.mask Distbl.code hr

def Optype.isBranch : Optype → Bool
  | .off | .rsRtOff | .rsOff | .cpOff | .target | .jalr | .jr => true
  | _ => false

def Optype.isConditional : Optype → Bool
  | .rsRtOff | .rsOff | .cpOff => true
  | _ => false

/-- `Gpr`. -/
abbrev Regs := BitVec 5 → BitVec 64

def branchTarget (inst adr : BitVec 32) (gpr : Regs) : BitVec 32 :=
  match (scanDistbl inst).type with
  | .off | .rsRtOff | .rsOff | .cpOff =>
    let val := inst &&& 0xffff
    let val := if val &&& 0x8000 ≠ 0 then val ||| 0xffff0000 else val
    adr + 4 + (val <<< 2)
  | .target => ((adr + 4) &&& 0xf0000000) ||| ((inst &&& 0x3ffffff) <<< 2)
  | .jalr | .jr => (gpr ((inst >>> 21).setWidth 5)).setWidth 32
  | _ => 0

def isJal (inst : BitVec 32) : Bool := match (inst >>> 26).toNat with
  | 0 => inst &&& 0x3f == 9
  | 1 => (inst >>> 19) &&& 0x3 == 2
  | 3 => true
  | _ => false

def machineCpu (isWriteable : ℕ → Bool) : Cpu Regs where
  isBranch mem adr := (scanDistbl (BitVec.ofNat 32 (mem adr))).type.isBranch
  branchTargetAddress mem gpr adr :=
    (branchTarget (BitVec.ofNat 32 (mem adr)) (BitVec.ofNat 32 adr) gpr).toNat
  isConditionalBranch mem adr := (scanDistbl (BitVec.ofNat 32 (mem adr))).type.isConditional
  isJal mem adr := isJal (BitVec.ofNat 32 (mem adr))
  isJr mem adr := (scanDistbl (BitVec.ofNat 32 (mem adr))).type == .jr
  isWriteable _ adr := isWriteable adr
  ra gpr := ((gpr 31).setWidth 32).toNat

end Pmon.Machine
