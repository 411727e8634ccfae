import KuznyechikDPA.Hardware.Vectors
import Mathlib.Data.Fin.VecNotation

/-!
# Constant data of `grasshopper_pkg.vhd`

The package stands, with the same data, in the directories of the standard and of the
masked design. `lArray` followed by a number holds the multiples of one coefficient of the R step.
-/

namespace KuznyechikDPA.GrasshopperPkg

set_option maxRecDepth 4000

def sboxArrayEntries : List Byte := [
  0xfc, 0xee, 0xdd, 0x11, 0xcf, 0x6e, 0x31, 0x16, 0xfb, 0xc4, 0xfa, 0xda, 0x23, 0xc5, 0x04, 0x4d,
  0xe9, 0x77, 0xf0, 0xdb, 0x93, 0x2e, 0x99, 0xba, 0x17, 0x36, 0xf1, 0xbb, 0x14, 0xcd, 0x5f, 0xc1,
  0xf9, 0x18, 0x65, 0x5a, 0xe2, 0x5c, 0xef, 0x21, 0x81, 0x1c, 0x3c, 0x42, 0x8b, 0x01, 0x8e, 0x4f,
  0x05, 0x84, 0x02, 0xae, 0xe3, 0x6a, 0x8f, 0xa0, 0x06, 0x0b, 0xed, 0x98, 0x7f, 0xd4, 0xd3, 0x1f,
  0xeb, 0x34, 0x2c, 0x51, 0xea, 0xc8, 0x48, 0xab, 0xf2, 0x2a, 0x68, 0xa2, 0xfd, 0x3a, 0xce, 0xcc,
  0xb5, 0x70, 0x0e, 0x56, 0x08, 0x0c, 0x76, 0x12, 0xbf, 0x72, 0x13, 0x47, 0x9c, 0xb7, 0x5d, 0x87,
  0x15, 0xa1, 0x96, 0x29, 0x10, 0x7b, 0x9a, 0xc7, 0xf3, 0x91, 0x78, 0x6f, 0x9d, 0x9e, 0xb2, 0xb1,
  0x32, 0x75, 0x19, 0x3d, 0xff, 0x35, 0x8a, 0x7e, 0x6d, 0x54, 0xc6, 0x80, 0xc3, 0xbd, 0x0d, 0x57,
  0xdf, 0xf5, 0x24, 0xa9, 0x3e, 0xa8, 0x43, 0xc9, 0xd7, 0x79, 0xd6, 0xf6, 0x7c, 0x22, 0xb9, 0x03,
  0xe0, 0x0f, 0xec, 0xde, 0x7a, 0x94, 0xb0, 0xbc, 0xdc, 0xe8, 0x28, 0x50, 0x4e, 0x33, 0x0a, 0x4a,
  0xa7, 0x97, 0x60, 0x73, 0x1e, 0x00, 0x62, 0x44, 0x1a, 0xb8, 0x38, 0x82, 0x64, 0x9f, 0x26, 0x41,
  0xad, 0x45, 0x46, 0x92, 0x27, 0x5e, 0x55, 0x2f, 0x8c, 0xa3, 0xa5, 0x7d, 0x69, 0xd5, 0x95, 0x3b,
  0x07, 0x58, 0xb3, 0x40, 0x86, 0xac, 0x1d, 0xf7, 0x30, 0x37, 0x6b, 0xe4, 0x88, 0xd9, 0xe7, 0x89,
  0xe1, 0x1b, 0x83, 0x49, 0x4c, 0x3f, 0xf8, 0xfe, 0x8d, 0x53, 0xaa, 0x90, 0xca, 0xd8, 0x85, 0x61,
  0x20, 0x71, 0x67, 0xa4, 0x2d, 0x2b, 0x09, 0x5b, 0xcb, 0x9b, 0x25, 0xd0, 0xbe, 0xe5, 0x6c, 0x52,
  0x59, 0xa6, 0x74, 0xd2, 0xe6, 0xf4, 0xb4, 0xc0, 0xd1, 0x66, 0xaf, 0xc2, 0x39, 0x4b, 0x63, 0xb6]

def sboxArray : Table := ⟨sboxArrayEntries, rfl⟩

def invSboxArrayEntries : List Byte := [
  0xa5, 0x2d, 0x32, 0x8f, 0x0e, 0x30, 0x38, 0xc0, 0x54, 0xe6, 0x9e, 0x39, 0x55, 0x7e, 0x52, 0x91,
  0x64, 0x03, 0x57, 0x5a, 0x1c, 0x60, 0x07, 0x18, 0x21, 0x72, 0xa8, 0xd1, 0x29, 0xc6, 0xa4, 0x3f,
  0xe0, 0x27, 0x8d, 0x0c, 0x82, 0xea, 0xae, 0xb4, 0x9a, 0x63, 0x49, 0xe5, 0x42, 0xe4, 0x15, 0xb7,
  0xc8, 0x06, 0x70, 0x9d, 0x41, 0x75, 0x19, 0xc9, 0xaa, 0xfc, 0x4d, 0xbf, 0x2a, 0x73, 0x84, 0xd5,
  0xc3, 0xaf, 0x2b, 0x86, 0xa7, 0xb1, 0xb2, 0x5b, 0x46, 0xd3, 0x9f, 0xfd, 0xd4, 0x0f, 0x9c, 0x2f,
  0x9b, 0x43, 0xef, 0xd9, 0x79, 0xb6, 0x53, 0x7f, 0xc1, 0xf0, 0x23, 0xe7, 0x25, 0x5e, 0xb5, 0x1e,
  0xa2, 0xdf, 0xa6, 0xfe, 0xac, 0x22, 0xf9, 0xe2, 0x4a, 0xbc, 0x35, 0xca, 0xee, 0x78, 0x05, 0x6b,
  0x51, 0xe1, 0x59, 0xa3, 0xf2, 0x71, 0x56, 0x11, 0x6a, 0x89, 0x94, 0x65, 0x8c, 0xbb, 0x77, 0x3c,
  0x7b, 0x28, 0xab, 0xd2, 0x31, 0xde, 0xc4, 0x5f, 0xcc, 0xcf, 0x76, 0x2c, 0xb8, 0xd8, 0x2e, 0x36,
  0xdb, 0x69, 0xb3, 0x14, 0x95, 0xbe, 0x62, 0xa1, 0x3b, 0x16, 0x66, 0xe9, 0x5c, 0x6c, 0x6d, 0xad,
  0x37, 0x61, 0x4b, 0xb9, 0xe3, 0xba, 0xf1, 0xa0, 0x85, 0x83, 0xda, 0x47, 0xc5, 0xb0, 0x33, 0xfa,
  0x96, 0x6f, 0x6e, 0xc2, 0xf6, 0x50, 0xff, 0x5d, 0xa9, 0x8e, 0x17, 0x1b, 0x97, 0x7d, 0xec, 0x58,
  0xf7, 0x1f, 0xfb, 0x7c, 0x09, 0x0d, 0x7a, 0x67, 0x45, 0x87, 0xdc, 0xe8, 0x4f, 0x1d, 0x4e, 0x04,
  0xeb, 0xf8, 0xf3, 0x3e, 0x3d, 0xbd, 0x8a, 0x88, 0xdd, 0xcd, 0x0b, 0x13, 0x98, 0x02, 0x93, 0x80,
  0x90, 0xd0, 0x24, 0x34, 0xcb, 0xed, 0xf4, 0xce, 0x99, 0x10, 0x44, 0x40, 0x92, 0x3a, 0x01, 0x26,
  0x12, 0x1a, 0x48, 0x68, 0xf5, 0x81, 0x8b, 0xc7, 0xd6, 0x20, 0x0a, 0x08, 0x00, 0x4c, 0xd7, 0x74]

def invSboxArray : Table := ⟨invSboxArrayEntries, rfl⟩

def lArray2Entries : List Byte := [
  0x00, 0x10, 0x20, 0x30, 0x40, 0x50, 0x60, 0x70, 0x80, 0x90, 0xa0, 0xb0, 0xc0, 0xd0, 0xe0, 0xf0,
  0xc3, 0xd3, 0xe3, 0xf3, 0x83, 0x93, 0xa3, 0xb3, 0x43, 0x53, 0x63, 0x73, 0x03, 0x13, 0x23, 0x33,
  0x45, 0x55, 0x65, 0x75, 0x05, 0x15, 0x25, 0x35, 0xc5, 0xd5, 0xe5, 0xf5, 0x85, 0x95, 0xa5, 0xb5,
  0x86, 0x96, 0xa6, 0xb6, 0xc6, 0xd6, 0xe6, 0xf6, 0x06, 0x16, 0x26, 0x36, 0x46, 0x56, 0x66, 0x76,
  0x8a, 0x9a, 0xaa, 0xba, 0xca, 0xda, 0xea, 0xfa, 0x0a, 0x1a, 0x2a, 0x3a, 0x4a, 0x5a, 0x6a, 0x7a,
  0x49, 0x59, 0x69, 0x79, 0x09, 0x19, 0x29, 0x39, 0xc9, 0xd9, 0xe9, 0xf9, 0x89, 0x99, 0xa9, 0xb9,
  0xcf, 0xdf, 0xef, 0xff, 0x8f, 0x9f, 0xaf, 0xbf, 0x4f, 0x5f, 0x6f, 0x7f, 0x0f, 0x1f, 0x2f, 0x3f,
  0x0c, 0x1c, 0x2c, 0x3c, 0x4c, 0x5c, 0x6c, 0x7c, 0x8c, 0x9c, 0xac, 0xbc, 0xcc, 0xdc, 0xec, 0xfc,
  0xd7, 0xc7, 0xf7, 0xe7, 0x97, 0x87, 0xb7, 0xa7, 0x57, 0x47, 0x77, 0x67, 0x17, 0x07, 0x37, 0x27,
  0x14, 0x04, 0x34, 0x24, 0x54, 0x44, 0x74, 0x64, 0x94, 0x84, 0xb4, 0xa4, 0xd4, 0xc4, 0xf4, 0xe4,
  0x92, 0x82, 0xb2, 0xa2, 0xd2, 0xc2, 0xf2, 0xe2, 0x12, 0x02, 0x32, 0x22, 0x52, 0x42, 0x72, 0x62,
  0x51, 0x41, 0x71, 0x61, 0x11, 0x01, 0x31, 0x21, 0xd1, 0xc1, 0xf1, 0xe1, 0x91, 0x81, 0xb1, 0xa1,
  0x5d, 0x4d, 0x7d, 0x6d, 0x1d, 0x0d, 0x3d, 0x2d, 0xdd, 0xcd, 0xfd, 0xed, 0x9d, 0x8d, 0xbd, 0xad,
  0x9e, 0x8e, 0xbe, 0xae, 0xde, 0xce, 0xfe, 0xee, 0x1e, 0x0e, 0x3e, 0x2e, 0x5e, 0x4e, 0x7e, 0x6e,
  0x18, 0x08, 0x38, 0x28, 0x58, 0x48, 0x78, 0x68, 0x98, 0x88, 0xb8, 0xa8, 0xd8, 0xc8, 0xf8, 0xe8,
  0xdb, 0xcb, 0xfb, 0xeb, 0x9b, 0x8b, 0xbb, 0xab, 0x5b, 0x4b, 0x7b, 0x6b, 0x1b, 0x0b, 0x3b, 0x2b]

def lArray2 : Table := ⟨lArray2Entries, rfl⟩

def lArray3Entries : List Byte := [
  0x00, 0x20, 0x40, 0x60, 0x80, 0xa0, 0xc0, 0xe0, 0xc3, 0xe3, 0x83, 0xa3, 0x43, 0x63, 0x03, 0x23,
  0x45, 0x65, 0x05, 0x25, 0xc5, 0xe5, 0x85, 0xa5, 0x86, 0xa6, 0xc6, 0xe6, 0x06, 0x26, 0x46, 0x66,
  0x8a, 0xaa, 0xca, 0xea, 0x0a, 0x2a, 0x4a, 0x6a, 0x49, 0x69, 0x09, 0x29, 0xc9, 0xe9, 0x89, 0xa9,
  0xcf, 0xef, 0x8f, 0xaf, 0x4f, 0x6f, 0x0f, 0x2f, 0x0c, 0x2c, 0x4c, 0x6c, 0x8c, 0xac, 0xcc, 0xec,
  0xd7, 0xf7, 0x97, 0xb7, 0x57, 0x77, 0x17, 0x37, 0x14, 0x34, 0x54, 0x74, 0x94, 0xb4, 0xd4, 0xf4,
  0x92, 0xb2, 0xd2, 0xf2, 0x12, 0x32, 0x52, 0x72, 0x51, 0x71, 0x11, 0x31, 0xd1, 0xf1, 0x91, 0xb1,
  0x5d, 0x7d, 0x1d, 0x3d, 0xdd, 0xfd, 0x9d, 0xbd, 0x9e, 0xbe, 0xde, 0xfe, 0x1e, 0x3e, 0x5e, 0x7e,
  0x18, 0x38, 0x58, 0x78, 0x98, 0xb8, 0xd8, 0xf8, 0xdb, 0xfb, 0x9b, 0xbb, 0x5b, 0x7b, 0x1b, 0x3b,
  0x6d, 0x4d, 0x2d, 0x0d, 0xed, 0xcd, 0xad, 0x8d, 0xae, 0x8e, 0xee, 0xce, 0x2e, 0x0e, 0x6e, 0x4e,
  0x28, 0x08, 0x68, 0x48, 0xa8, 0x88, 0xe8, 0xc8, 0xeb, 0xcb, 0xab, 0x8b, 0x6b, 0x4b, 0x2b, 0x0b,
  0xe7, 0xc7, 0xa7, 0x87, 0x67, 0x47, 0x27, 0x07, 0x24, 0x04, 0x64, 0x44, 0xa4, 0x84, 0xe4, 0xc4,
  0xa2, 0x82, 0xe2, 0xc2, 0x22, 0x02, 0x62, 0x42, 0x61, 0x41, 0x21, 0x01, 0xe1, 0xc1, 0xa1, 0x81,
  0xba, 0x9a, 0xfa, 0xda, 0x3a, 0x1a, 0x7a, 0x5a, 0x79, 0x59, 0x39, 0x19, 0xf9, 0xd9, 0xb9, 0x99,
  0xff, 0xdf, 0xbf, 0x9f, 0x7f, 0x5f, 0x3f, 0x1f, 0x3c, 0x1c, 0x7c, 0x5c, 0xbc, 0x9c, 0xfc, 0xdc,
  0x30, 0x10, 0x70, 0x50, 0xb0, 0x90, 0xf0, 0xd0, 0xf3, 0xd3, 0xb3, 0x93, 0x73, 0x53, 0x33, 0x13,
  0x75, 0x55, 0x35, 0x15, 0xf5, 0xd5, 0xb5, 0x95, 0xb6, 0x96, 0xf6, 0xd6, 0x36, 0x16, 0x76, 0x56]

def lArray3 : Table := ⟨lArray3Entries, rfl⟩

def lArray4Entries : List Byte := [
  0x00, 0x85, 0xc9, 0x4c, 0x51, 0xd4, 0x98, 0x1d, 0xa2, 0x27, 0x6b, 0xee, 0xf3, 0x76, 0x3a, 0xbf,
  0x87, 0x02, 0x4e, 0xcb, 0xd6, 0x53, 0x1f, 0x9a, 0x25, 0xa0, 0xec, 0x69, 0x74, 0xf1, 0xbd, 0x38,
  0xcd, 0x48, 0x04, 0x81, 0x9c, 0x19, 0x55, 0xd0, 0x6f, 0xea, 0xa6, 0x23, 0x3e, 0xbb, 0xf7, 0x72,
  0x4a, 0xcf, 0x83, 0x06, 0x1b, 0x9e, 0xd2, 0x57, 0xe8, 0x6d, 0x21, 0xa4, 0xb9, 0x3c, 0x70, 0xf5,
  0x59, 0xdc, 0x90, 0x15, 0x08, 0x8d, 0xc1, 0x44, 0xfb, 0x7e, 0x32, 0xb7, 0xaa, 0x2f, 0x63, 0xe6,
  0xde, 0x5b, 0x17, 0x92, 0x8f, 0x0a, 0x46, 0xc3, 0x7c, 0xf9, 0xb5, 0x30, 0x2d, 0xa8, 0xe4, 0x61,
  0x94, 0x11, 0x5d, 0xd8, 0xc5, 0x40, 0x0c, 0x89, 0x36, 0xb3, 0xff, 0x7a, 0x67, 0xe2, 0xae, 0x2b,
  0x13, 0x96, 0xda, 0x5f, 0x42, 0xc7, 0x8b, 0x0e, 0xb1, 0x34, 0x78, 0xfd, 0xe0, 0x65, 0x29, 0xac,
  0xb2, 0x37, 0x7b, 0xfe, 0xe3, 0x66, 0x2a, 0xaf, 0x10, 0x95, 0xd9, 0x5c, 0x41, 0xc4, 0x88, 0x0d,
  0x35, 0xb0, 0xfc, 0x79, 0x64, 0xe1, 0xad, 0x28, 0x97, 0x12, 0x5e, 0xdb, 0xc6, 0x43, 0x0f, 0x8a,
  0x7f, 0xfa, 0xb6, 0x33, 0x2e, 0xab, 0xe7, 0x62, 0xdd, 0x58, 0x14, 0x91, 0x8c, 0x09, 0x45, 0xc0,
  0xf8, 0x7d, 0x31, 0xb4, 0xa9, 0x2c, 0x60, 0xe5, 0x5a, 0xdf, 0x93, 0x16, 0x0b, 0x8e, 0xc2, 0x47,
  0xeb, 0x6e, 0x22, 0xa7, 0xba, 0x3f, 0x73, 0xf6, 0x49, 0xcc, 0x80, 0x05, 0x18, 0x9d, 0xd1, 0x54,
  0x6c, 0xe9, 0xa5, 0x20, 0x3d, 0xb8, 0xf4, 0x71, 0xce, 0x4b, 0x07, 0x82, 0x9f, 0x1a, 0x56, 0xd3,
  0x26, 0xa3, 0xef, 0x6a, 0x77, 0xf2, 0xbe, 0x3b, 0x84, 0x01, 0x4d, 0xc8, 0xd5, 0x50, 0x1c, 0x99,
  0xa1, 0x24, 0x68, 0xed, 0xf0, 0x75, 0x39, 0xbc, 0x03, 0x86, 0xca, 0x4f, 0x52, 0xd7, 0x9b, 0x1e]

def lArray4 : Table := ⟨lArray4Entries, rfl⟩

def lArray5Entries : List Byte := [
  0x00, 0x94, 0xeb, 0x7f, 0x15, 0x81, 0xfe, 0x6a, 0x2a, 0xbe, 0xc1, 0x55, 0x3f, 0xab, 0xd4, 0x40,
  0x54, 0xc0, 0xbf, 0x2b, 0x41, 0xd5, 0xaa, 0x3e, 0x7e, 0xea, 0x95, 0x01, 0x6b, 0xff, 0x80, 0x14,
  0xa8, 0x3c, 0x43, 0xd7, 0xbd, 0x29, 0x56, 0xc2, 0x82, 0x16, 0x69, 0xfd, 0x97, 0x03, 0x7c, 0xe8,
  0xfc, 0x68, 0x17, 0x83, 0xe9, 0x7d, 0x02, 0x96, 0xd6, 0x42, 0x3d, 0xa9, 0xc3, 0x57, 0x28, 0xbc,
  0x93, 0x07, 0x78, 0xec, 0x86, 0x12, 0x6d, 0xf9, 0xb9, 0x2d, 0x52, 0xc6, 0xac, 0x38, 0x47, 0xd3,
  0xc7, 0x53, 0x2c, 0xb8, 0xd2, 0x46, 0x39, 0xad, 0xed, 0x79, 0x06, 0x92, 0xf8, 0x6c, 0x13, 0x87,
  0x3b, 0xaf, 0xd0, 0x44, 0x2e, 0xba, 0xc5, 0x51, 0x11, 0x85, 0xfa, 0x6e, 0x04, 0x90, 0xef, 0x7b,
  0x6f, 0xfb, 0x84, 0x10, 0x7a, 0xee, 0x91, 0x05, 0x45, 0xd1, 0xae, 0x3a, 0x50, 0xc4, 0xbb, 0x2f,
  0xe5, 0x71, 0x0e, 0x9a, 0xf0, 0x64, 0x1b, 0x8f, 0xcf, 0x5b, 0x24, 0xb0, 0xda, 0x4e, 0x31, 0xa5,
  0xb1, 0x25, 0x5a, 0xce, 0xa4, 0x30, 0x4f, 0xdb, 0x9b, 0x0f, 0x70, 0xe4, 0x8e, 0x1a, 0x65, 0xf1,
  0x4d, 0xd9, 0xa6, 0x32, 0x58, 0xcc, 0xb3, 0x27, 0x67, 0xf3, 0x8c, 0x18, 0x72, 0xe6, 0x99, 0x0d,
  0x19, 0x8d, 0xf2, 0x66, 0x0c, 0x98, 0xe7, 0x73, 0x33, 0xa7, 0xd8, 0x4c, 0x26, 0xb2, 0xcd, 0x59,
  0x76, 0xe2, 0x9d, 0x09, 0x63, 0xf7, 0x88, 0x1c, 0x5c, 0xc8, 0xb7, 0x23, 0x49, 0xdd, 0xa2, 0x36,
  0x22, 0xb6, 0xc9, 0x5d, 0x37, 0xa3, 0xdc, 0x48, 0x08, 0x9c, 0xe3, 0x77, 0x1d, 0x89, 0xf6, 0x62,
  0xde, 0x4a, 0x35, 0xa1, 0xcb, 0x5f, 0x20, 0xb4, 0xf4, 0x60, 0x1f, 0x8b, 0xe1, 0x75, 0x0a, 0x9e,
  0x8a, 0x1e, 0x61, 0xf5, 0x9f, 0x0b, 0x74, 0xe0, 0xa0, 0x34, 0x4b, 0xdf, 0xb5, 0x21, 0x5e, 0xca]

def lArray5 : Table := ⟨lArray5Entries, rfl⟩

def lArray6Entries : List Byte := [
  0x00, 0xc0, 0x43, 0x83, 0x86, 0x46, 0xc5, 0x05, 0xcf, 0x0f, 0x8c, 0x4c, 0x49, 0x89, 0x0a, 0xca,
  0x5d, 0x9d, 0x1e, 0xde, 0xdb, 0x1b, 0x98, 0x58, 0x92, 0x52, 0xd1, 0x11, 0x14, 0xd4, 0x57, 0x97,
  0xba, 0x7a, 0xf9, 0x39, 0x3c, 0xfc, 0x7f, 0xbf, 0x75, 0xb5, 0x36, 0xf6, 0xf3, 0x33, 0xb0, 0x70,
  0xe7, 0x27, 0xa4, 0x64, 0x61, 0xa1, 0x22, 0xe2, 0x28, 0xe8, 0x6b, 0xab, 0xae, 0x6e, 0xed, 0x2d,
  0xb7, 0x77, 0xf4, 0x34, 0x31, 0xf1, 0x72, 0xb2, 0x78, 0xb8, 0x3b, 0xfb, 0xfe, 0x3e, 0xbd, 0x7d,
  0xea, 0x2a, 0xa9, 0x69, 0x6c, 0xac, 0x2f, 0xef, 0x25, 0xe5, 0x66, 0xa6, 0xa3, 0x63, 0xe0, 0x20,
  0x0d, 0xcd, 0x4e, 0x8e, 0x8b, 0x4b, 0xc8, 0x08, 0xc2, 0x02, 0x81, 0x41, 0x44, 0x84, 0x07, 0xc7,
  0x50, 0x90, 0x13, 0xd3, 0xd6, 0x16, 0x95, 0x55, 0x9f, 0x5f, 0xdc, 0x1c, 0x19, 0xd9, 0x5a, 0x9a,
  0xad, 0x6d, 0xee, 0x2e, 0x2b, 0xeb, 0x68, 0xa8, 0x62, 0xa2, 0x21, 0xe1, 0xe4, 0x24, 0xa7, 0x67,
  0xf0, 0x30, 0xb3, 0x73, 0x76, 0xb6, 0x35, 0xf5, 0x3f, 0xff, 0x7c, 0xbc, 0xb9, 0x79, 0xfa, 0x3a,
  0x17, 0xd7, 0x54, 0x94, 0x91, 0x51, 0xd2, 0x12, 0xd8, 0x18, 0x9b, 0x5b, 0x5e, 0x9e, 0x1d, 0xdd,
  0x4a, 0x8a, 0x09, 0xc9, 0xcc, 0x0c, 0x8f, 0x4f, 0x85, 0x45, 0xc6, 0x06, 0x03, 0xc3, 0x40, 0x80,
  0x1a, 0xda, 0x59, 0x99, 0x9c, 0x5c, 0xdf, 0x1f, 0xd5, 0x15, 0x96, 0x56, 0x53, 0x93, 0x10, 0xd0,
  0x47, 0x87, 0x04, 0xc4, 0xc1, 0x01, 0x82, 0x42, 0x88, 0x48, 0xcb, 0x0b, 0x0e, 0xce, 0x4d, 0x8d,
  0xa0, 0x60, 0xe3, 0x23, 0x26, 0xe6, 0x65, 0xa5, 0x6f, 0xaf, 0x2c, 0xec, 0xe9, 0x29, 0xaa, 0x6a,
  0xfd, 0x3d, 0xbe, 0x7e, 0x7b, 0xbb, 0x38, 0xf8, 0x32, 0xf2, 0x71, 0xb1, 0xb4, 0x74, 0xf7, 0x37]

def lArray6 : Table := ⟨lArray6Entries, rfl⟩

def lArray7Entries : List Byte := [
  0x00, 0xc2, 0x47, 0x85, 0x8e, 0x4c, 0xc9, 0x0b, 0xdf, 0x1d, 0x98, 0x5a, 0x51, 0x93, 0x16, 0xd4,
  0x7d, 0xbf, 0x3a, 0xf8, 0xf3, 0x31, 0xb4, 0x76, 0xa2, 0x60, 0xe5, 0x27, 0x2c, 0xee, 0x6b, 0xa9,
  0xfa, 0x38, 0xbd, 0x7f, 0x74, 0xb6, 0x33, 0xf1, 0x25, 0xe7, 0x62, 0xa0, 0xab, 0x69, 0xec, 0x2e,
  0x87, 0x45, 0xc0, 0x02, 0x09, 0xcb, 0x4e, 0x8c, 0x58, 0x9a, 0x1f, 0xdd, 0xd6, 0x14, 0x91, 0x53,
  0x37, 0xf5, 0x70, 0xb2, 0xb9, 0x7b, 0xfe, 0x3c, 0xe8, 0x2a, 0xaf, 0x6d, 0x66, 0xa4, 0x21, 0xe3,
  0x4a, 0x88, 0x0d, 0xcf, 0xc4, 0x06, 0x83, 0x41, 0x95, 0x57, 0xd2, 0x10, 0x1b, 0xd9, 0x5c, 0x9e,
  0xcd, 0x0f, 0x8a, 0x48, 0x43, 0x81, 0x04, 0xc6, 0x12, 0xd0, 0x55, 0x97, 0x9c, 0x5e, 0xdb, 0x19,
  0xb0, 0x72, 0xf7, 0x35, 0x3e, 0xfc, 0x79, 0xbb, 0x6f, 0xad, 0x28, 0xea, 0xe1, 0x23, 0xa6, 0x64,
  0x6e, 0xac, 0x29, 0xeb, 0xe0, 0x22, 0xa7, 0x65, 0xb1, 0x73, 0xf6, 0x34, 0x3f, 0xfd, 0x78, 0xba,
  0x13, 0xd1, 0x54, 0x96, 0x9d, 0x5f, 0xda, 0x18, 0xcc, 0x0e, 0x8b, 0x49, 0x42, 0x80, 0x05, 0xc7,
  0x94, 0x56, 0xd3, 0x11, 0x1a, 0xd8, 0x5d, 0x9f, 0x4b, 0x89, 0x0c, 0xce, 0xc5, 0x07, 0x82, 0x40,
  0xe9, 0x2b, 0xae, 0x6c, 0x67, 0xa5, 0x20, 0xe2, 0x36, 0xf4, 0x71, 0xb3, 0xb8, 0x7a, 0xff, 0x3d,
  0x59, 0x9b, 0x1e, 0xdc, 0xd7, 0x15, 0x90, 0x52, 0x86, 0x44, 0xc1, 0x03, 0x08, 0xca, 0x4f, 0x8d,
  0x24, 0xe6, 0x63, 0xa1, 0xaa, 0x68, 0xed, 0x2f, 0xfb, 0x39, 0xbc, 0x7e, 0x75, 0xb7, 0x32, 0xf0,
  0xa3, 0x61, 0xe4, 0x26, 0x2d, 0xef, 0x6a, 0xa8, 0x7c, 0xbe, 0x3b, 0xf9, 0xf2, 0x30, 0xb5, 0x77,
  0xde, 0x1c, 0x99, 0x5b, 0x50, 0x92, 0x17, 0xd5, 0x01, 0xc3, 0x46, 0x84, 0x8f, 0x4d, 0xc8, 0x0a]

def lArray7 : Table := ⟨lArray7Entries, rfl⟩

def lArray8Entries : List Byte := [
  0x00, 0xfb, 0x35, 0xce, 0x6a, 0x91, 0x5f, 0xa4, 0xd4, 0x2f, 0xe1, 0x1a, 0xbe, 0x45, 0x8b, 0x70,
  0x6b, 0x90, 0x5e, 0xa5, 0x01, 0xfa, 0x34, 0xcf, 0xbf, 0x44, 0x8a, 0x71, 0xd5, 0x2e, 0xe0, 0x1b,
  0xd6, 0x2d, 0xe3, 0x18, 0xbc, 0x47, 0x89, 0x72, 0x02, 0xf9, 0x37, 0xcc, 0x68, 0x93, 0x5d, 0xa6,
  0xbd, 0x46, 0x88, 0x73, 0xd7, 0x2c, 0xe2, 0x19, 0x69, 0x92, 0x5c, 0xa7, 0x03, 0xf8, 0x36, 0xcd,
  0x6f, 0x94, 0x5a, 0xa1, 0x05, 0xfe, 0x30, 0xcb, 0xbb, 0x40, 0x8e, 0x75, 0xd1, 0x2a, 0xe4, 0x1f,
  0x04, 0xff, 0x31, 0xca, 0x6e, 0x95, 0x5b, 0xa0, 0xd0, 0x2b, 0xe5, 0x1e, 0xba, 0x41, 0x8f, 0x74,
  0xb9, 0x42, 0x8c, 0x77, 0xd3, 0x28, 0xe6, 0x1d, 0x6d, 0x96, 0x58, 0xa3, 0x07, 0xfc, 0x32, 0xc9,
  0xd2, 0x29, 0xe7, 0x1c, 0xb8, 0x43, 0x8d, 0x76, 0x06, 0xfd, 0x33, 0xc8, 0x6c, 0x97, 0x59, 0xa2,
  0xde, 0x25, 0xeb, 0x10, 0xb4, 0x4f, 0x81, 0x7a, 0x0a, 0xf1, 0x3f, 0xc4, 0x60, 0x9b, 0x55, 0xae,
  0xb5, 0x4e, 0x80, 0x7b, 0xdf, 0x24, 0xea, 0x11, 0x61, 0x9a, 0x54, 0xaf, 0x0b, 0xf0, 0x3e, 0xc5,
  0x08, 0xf3, 0x3d, 0xc6, 0x62, 0x99, 0x57, 0xac, 0xdc, 0x27, 0xe9, 0x12, 0xb6, 0x4d, 0x83, 0x78,
  0x63, 0x98, 0x56, 0xad, 0x09, 0xf2, 0x3c, 0xc7, 0xb7, 0x4c, 0x82, 0x79, 0xdd, 0x26, 0xe8, 0x13,
  0xb1, 0x4a, 0x84, 0x7f, 0xdb, 0x20, 0xee, 0x15, 0x65, 0x9e, 0x50, 0xab, 0x0f, 0xf4, 0x3a, 0xc1,
  0xda, 0x21, 0xef, 0x14, 0xb0, 0x4b, 0x85, 0x7e, 0x0e, 0xf5, 0x3b, 0xc0, 0x64, 0x9f, 0x51, 0xaa,
  0x67, 0x9c, 0x52, 0xa9, 0x0d, 0xf6, 0x38, 0xc3, 0xb3, 0x48, 0x86, 0x7d, 0xd9, 0x22, 0xec, 0x17,
  0x0c, 0xf7, 0x39, 0xc2, 0x66, 0x9d, 0x53, 0xa8, 0xd8, 0x23, 0xed, 0x16, 0xb2, 0x49, 0x87, 0x7c]

def lArray8 : Table := ⟨lArray8Entries, rfl⟩

/-- Indexed from one. -/
def subKeysCi : List Block := [
  0x6ea276726c487ab85d27bd10dd849401,
  0xdc87ece4d890f4b3ba4eb92079cbeb02,
  0xb2259a96b4d88e0be7690430a44f7f03,
  0x7bcd1b0b73e32ba5b79cb140f2551504,
  0x156f6d791fab511deabb0c502fd18105,
  0xa74af7efab73df160dd208608b9efe06,
  0xc9e8819dc73ba5ae50f5b570561a6a07,
  0xf6593616e6055689adfba18027aa2a08,
  0x98fb40648a4d2c31f0dc1c90fa2ebe09,
  0x2adedaf23e95a23a17b518a05e61c10a,
  0x447cac8052ddd8824a92a5b083e5550b,
  0x8d942d1d95e67d2c1a6710c0d5ff3f0c,
  0xe3365b6ff9ae07944740add0087bab0d,
  0x5113c1f94d76899fa029a9e0ac34d40e,
  0x3fb1b78b213ef327fd0e14f071b0400f,
  0x2fb26c2c0f0aacd1993581c34e975410,
  0x41101a5e6342d669c4123cd39313c011,
  0xf33580c8d79a5862237b38e3375cbf12,
  0x9d97f6babbd222da7e5c85f3ead82b13,
  0x547f77277ce987742ea93083bcc24114,
  0x3add015510a1fdcc738e8d936146d515,
  0x88f89bc3a47973c794e789a3c509aa16,
  0xe65aedb1c831097fc9c034b3188d3e17,
  0xd9eb5a3ae90ffa5834ce2043693d7e18,
  0xb7492c48854780e069e99d53b4b9ea19,
  0x056cb6de319f0eeb8e80996310f6951a,
  0x6bcec0ac5dd77453d3a72473cd72011b,
  0xa22641319aecd1fd835291039b686b1c,
  0xcc843743f6a4ab45de752c1346ecff1d,
  0x7ea1add5427c254e391c2823e2a3801e,
  0x1003dba72e345ff6643b95333f27141f,
  0x5ea7d8581e149b61f16ac1459ceda820,
  0x00000000000000000000000000000000]

end KuznyechikDPA.GrasshopperPkg
