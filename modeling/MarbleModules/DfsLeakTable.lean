import Mathlib.Data.List.Basic

/-! The channel leakage tables of DFS: for each channel of the NOL and each width, how far a
channel to move to leaks into it. -/
namespace MarbleModules
namespace DfsLeakage

/-- `DFS_TX_LEAKAGE_MAX` -/
def leakageMax : ℕ := 1000

/-- `DFS_TX_LEAKAGE_MIN` -/
def leakageMin : ℕ := 200

/-- `DFS_TX_LEAKAGE_AUTO_MIN` -/
def leakageAutoMin : ℕ := 210

/-- `struct dfs_tx_leak_info` -/
structure LeakInfo where
  leakChan : ℕ
  leakChanFreq : ℕ
  leakLvl : ℕ
  deriving DecidableEq

/-- `struct dfs_matrix_tx_leak_info` -/
structure MatrixLeakInfo where
  channel : ℕ
  channelFreq : ℕ
  chanMatrix : List LeakInfo

/-- The columns of a row, `CHAN_ENUM_5720 - CHAN_ENUM_5180 + 1` -/
def numColumns : ℕ := 20

/-- A row as initialised; columns that are not given are zero. -/
def matrixRow (channel channelFreq : ℕ) (cols : List LeakInfo) : MatrixLeakInfo :=
  ⟨channel,channelFreq,cols++List.replicate (numColumns-cols.length) ⟨0,0,0⟩⟩

/-- `ht80_chan` -/
def ht80Chan : List MatrixLeakInfo := [
  matrixRow 52 5260
    [⟨36,5180,148⟩,⟨40,5200,199⟩,⟨44,5520,193⟩,⟨48,5240,197⟩,⟨52,5260,leakageMin⟩,⟨56,5280,153⟩,
     ⟨60,5300,137⟩,⟨64,5320,134⟩,⟨100,5500,358⟩,⟨104,5520,350⟩,⟨108,5540,404⟩,⟨112,5560,344⟩,
     ⟨116,5580,424⟩,⟨120,5600,429⟩,⟨124,5620,437⟩,⟨128,5640,435⟩,⟨132,5660,leakageMax⟩,
     ⟨136,5680,leakageMax⟩,⟨140,5700,leakageMax⟩,⟨144,5720,leakageMin⟩],
  matrixRow 56 5280
    [⟨36,5180,171⟩,⟨40,5200,178⟩,⟨44,5220,171⟩,⟨48,5240,178⟩,⟨52,5260,leakageMin⟩,
     ⟨56,5280,leakageMin⟩,⟨60,5300,leakageMin⟩,⟨64,5320,280⟩,⟨100,5500,351⟩,⟨104,5520,376⟩,
     ⟨108,5540,362⟩,⟨112,5560,362⟩,⟨116,5580,403⟩,⟨120,5600,397⟩,⟨124,5620,leakageMax⟩,
     ⟨128,5640,leakageMax⟩,⟨132,5660,leakageMax⟩,⟨136,5680,leakageMax⟩,⟨140,5700,leakageMax⟩,
     ⟨144,5720,leakageMin⟩],
  matrixRow 60 5300
    [⟨36,5180,156⟩,⟨40,5200,146⟩,⟨44,5220,leakageMin⟩,⟨48,5240,leakageMin⟩,⟨52,5260,180⟩,
     ⟨56,5280,leakageMin⟩,⟨60,5300,leakageMin⟩,⟨64,5320,leakageMin⟩,⟨100,5500,376⟩,⟨104,5520,360⟩,
     ⟨108,5540,leakageMax⟩,⟨112,5560,leakageMax⟩,⟨116,5580,395⟩,⟨120,5600,399⟩,
     ⟨124,5620,leakageMax⟩,⟨128,5640,leakageMax⟩,⟨132,5660,leakageMax⟩,⟨136,5680,leakageMax⟩,
     ⟨140,5700,leakageMax⟩,⟨144,5720,leakageMin⟩],
  matrixRow 64 5320
    [⟨36,5180,217⟩,⟨40,5200,221⟩,⟨44,5220,leakageMin⟩,⟨48,5240,leakageMin⟩,⟨52,5260,176⟩,
     ⟨56,5280,176⟩,⟨60,5300,leakageMin⟩,⟨64,5320,leakageMin⟩,⟨100,5500,384⟩,⟨104,5520,390⟩,
     ⟨108,5540,leakageMax⟩,⟨112,5560,leakageMax⟩,⟨116,5580,375⟩,⟨120,5600,374⟩,
     ⟨124,5620,leakageMax⟩,⟨128,5640,leakageMax⟩,⟨132,5660,leakageMax⟩,⟨136,5680,leakageMax⟩,
     ⟨140,5700,leakageMax⟩,⟨144,5720,leakageMin⟩],
  matrixRow 100 5500
    [⟨36,5180,357⟩,⟨40,5200,326⟩,⟨44,5220,321⟩,⟨48,5240,326⟩,⟨52,5260,378⟩,⟨56,5280,396⟩,
     ⟨60,5300,leakageMax⟩,⟨64,5320,leakageMax⟩,⟨100,5500,leakageMin⟩,⟨104,5520,leakageMin⟩,
     ⟨108,5540,196⟩,⟨112,5560,116⟩,⟨116,5580,166⟩,⟨120,5600,leakageMin⟩,⟨124,5620,leakageMin⟩,
     ⟨128,5640,leakageMin⟩,⟨132,5660,leakageMin⟩,⟨136,5680,leakageMin⟩,⟨140,5700,leakageMin⟩,
     ⟨144,5720,leakageMin⟩],
  matrixRow 104 5520
    [⟨36,5180,325⟩,⟨40,5200,325⟩,⟨44,5220,305⟩,⟨48,5240,352⟩,⟨52,5260,411⟩,⟨56,5280,411⟩,
     ⟨60,5300,leakageMax⟩,⟨64,5320,leakageMax⟩,⟨100,5500,leakageMin⟩,⟨104,5520,leakageMin⟩,
     ⟨108,5540,leakageMin⟩,⟨112,5560,460⟩,⟨116,5580,198⟩,⟨120,5600,leakageMin⟩,
     ⟨124,5620,leakageMin⟩,⟨128,5640,leakageMin⟩,⟨132,5660,leakageMin⟩,⟨136,5680,leakageMin⟩,
     ⟨140,5700,leakageMin⟩,⟨144,5720,leakageMin⟩],
  matrixRow 108 5540
    [⟨36,5180,304⟩,⟨40,5200,332⟩,⟨44,5220,310⟩,⟨48,5240,335⟩,⟨52,5260,431⟩,⟨56,5280,391⟩,
     ⟨60,5300,leakageMax⟩,⟨64,5320,leakageMax⟩,⟨100,5500,280⟩,⟨104,5520,leakageMin⟩,
     ⟨108,5540,leakageMin⟩,⟨112,5560,leakageMin⟩,⟨116,5580,185⟩,⟨120,5600,leakageMin⟩,
     ⟨124,5620,leakageMin⟩,⟨128,5640,leakageMin⟩,⟨132,5660,leakageMin⟩,⟨136,5680,leakageMin⟩,
     ⟨140,5700,leakageMin⟩,⟨144,5720,leakageMin⟩],
  matrixRow 112 5560
    [⟨36,5180,327⟩,⟨40,5200,335⟩,⟨44,5220,331⟩,⟨48,5240,345⟩,⟨52,5260,367⟩,⟨56,5280,401⟩,
     ⟨60,5300,leakageMax⟩,⟨64,5320,leakageMax⟩,⟨100,5500,131⟩,⟨104,5520,132⟩,
     ⟨108,5540,leakageMin⟩,⟨112,5560,leakageMin⟩,⟨116,5580,189⟩,⟨120,5600,leakageMin⟩,
     ⟨124,5620,leakageMin⟩,⟨128,5640,leakageMin⟩,⟨132,5660,leakageMin⟩,⟨136,5680,leakageMin⟩,
     ⟨140,5700,leakageMin⟩,⟨144,5720,leakageMin⟩],
  matrixRow 116 5580
    [⟨36,5180,384⟩,⟨40,5200,372⟩,⟨44,5220,389⟩,⟨48,5240,396⟩,⟨52,5260,348⟩,⟨56,5280,336⟩,
     ⟨60,5300,leakageMax⟩,⟨64,5320,leakageMax⟩,⟨100,5500,172⟩,⟨104,5520,169⟩,
     ⟨108,5540,leakageMin⟩,⟨112,5560,leakageMin⟩,⟨116,5580,leakageMin⟩,⟨120,5600,leakageMin⟩,
     ⟨124,5620,leakageMin⟩,⟨128,5640,leakageMin⟩,⟨132,5660,leakageMin⟩,⟨136,5680,leakageMin⟩,
     ⟨140,5700,leakageMin⟩,⟨144,5720,leakageMin⟩],
  matrixRow 120 5600
    [⟨36,5180,395⟩,⟨40,5200,419⟩,⟨44,5220,439⟩,⟨48,5240,407⟩,⟨52,5260,321⟩,⟨56,5280,334⟩,
     ⟨60,5300,leakageMax⟩,⟨64,5320,leakageMax⟩,⟨100,5500,134⟩,⟨104,5520,186⟩,
     ⟨108,5540,leakageMin⟩,⟨112,5560,leakageMin⟩,⟨116,5580,leakageMin⟩,⟨120,5600,leakageMin⟩,
     ⟨124,5620,leakageMin⟩,⟨128,5640,159⟩,⟨132,5660,leakageMin⟩,⟨136,5680,leakageMin⟩,
     ⟨140,5700,leakageMin⟩,⟨144,5720,leakageMin⟩],
  matrixRow 124 5620
    [⟨36,5180,469⟩,⟨40,5200,433⟩,⟨44,5220,434⟩,⟨48,5240,435⟩,⟨52,5260,332⟩,⟨56,5280,345⟩,
     ⟨60,5300,leakageMax⟩,⟨64,5320,leakageMax⟩,⟨100,5500,146⟩,⟨104,5520,177⟩,
     ⟨108,5540,leakageMin⟩,⟨112,5560,leakageMin⟩,⟨116,5580,350⟩,⟨120,5600,leakageMin⟩,
     ⟨124,5620,leakageMin⟩,⟨128,5640,138⟩,⟨132,5660,leakageMin⟩,⟨136,5680,leakageMin⟩,
     ⟨140,5700,leakageMin⟩,⟨144,5720,leakageMin⟩],
  matrixRow 128 5640
    [⟨36,5180,408⟩,⟨40,5200,434⟩,⟨44,5220,449⟩,⟨48,5240,444⟩,⟨52,5260,341⟩,⟨56,5280,374⟩,
     ⟨60,5300,leakageMax⟩,⟨64,5320,leakageMax⟩,⟨100,5500,205⟩,⟨104,5520,208⟩,
     ⟨108,5540,leakageMin⟩,⟨112,5560,leakageMin⟩,⟨116,5580,142⟩,⟨120,5600,leakageMin⟩,
     ⟨124,5620,leakageMin⟩,⟨128,5640,leakageMin⟩,⟨132,5660,leakageMin⟩,⟨136,5680,leakageMin⟩,
     ⟨140,5700,leakageMin⟩,⟨144,5720,leakageMin⟩],
  matrixRow 132 5660
    [⟨36,5180,leakageMax⟩,⟨40,5200,leakageMax⟩,⟨44,5220,leakageMax⟩,⟨48,5240,leakageMax⟩,
     ⟨52,5260,leakageMax⟩,⟨56,5280,leakageMax⟩,⟨60,5300,leakageMin⟩,⟨64,5320,leakageMin⟩,
     ⟨100,5500,leakageMin⟩,⟨104,5520,leakageMin⟩,⟨108,5540,leakageMin⟩,⟨112,5560,leakageMin⟩,
     ⟨116,5580,leakageMin⟩,⟨120,5600,leakageMin⟩,⟨124,5620,leakageMin⟩,⟨128,5640,leakageMin⟩,
     ⟨132,5660,leakageMin⟩,⟨136,5680,leakageMin⟩,⟨140,5700,leakageMin⟩,⟨144,5720,leakageMin⟩],
  matrixRow 136 5680
    [⟨36,5180,leakageMax⟩,⟨40,5200,leakageMax⟩,⟨44,5220,leakageMax⟩,⟨48,5240,leakageMax⟩,
     ⟨52,5260,leakageMax⟩,⟨56,5280,leakageMax⟩,⟨60,5300,leakageMin⟩,⟨64,5320,leakageMin⟩,
     ⟨100,5500,leakageMin⟩,⟨104,5520,leakageMin⟩,⟨108,5540,leakageMin⟩,⟨112,5560,leakageMin⟩,
     ⟨116,5580,leakageMin⟩,⟨120,5600,leakageMin⟩,⟨124,5620,leakageMin⟩,⟨128,5640,leakageMin⟩,
     ⟨132,5660,leakageMin⟩,⟨136,5680,leakageMin⟩,⟨140,5700,leakageMin⟩,⟨144,5720,leakageMin⟩],
  matrixRow 140 5700
    [⟨36,5180,leakageMax⟩,⟨40,5200,leakageMax⟩,⟨44,5220,leakageMax⟩,⟨48,5240,leakageMax⟩,
     ⟨52,5260,leakageMax⟩,⟨56,5280,leakageMax⟩,⟨60,5300,leakageMin⟩,⟨64,5320,leakageMin⟩,
     ⟨100,5500,leakageMin⟩,⟨104,5520,leakageMin⟩,⟨108,5540,leakageMin⟩,⟨112,5560,leakageMin⟩,
     ⟨116,5580,leakageMin⟩,⟨120,5600,leakageMin⟩,⟨124,5620,leakageMin⟩,⟨128,5640,leakageMin⟩,
     ⟨132,5660,leakageMin⟩,⟨136,5680,leakageMin⟩,⟨144,5720,leakageMin⟩],
  matrixRow 144 5720
    [⟨36,5180,leakageMax⟩,⟨40,5200,leakageMax⟩,⟨44,5220,leakageMax⟩,⟨48,5240,leakageMax⟩,
     ⟨52,5260,leakageMax⟩,⟨56,5280,leakageMax⟩,⟨60,5300,leakageMin⟩,⟨64,5320,leakageMin⟩,
     ⟨100,5500,leakageMin⟩,⟨104,5520,leakageMin⟩,⟨108,5540,leakageMin⟩,⟨112,5560,leakageMin⟩,
     ⟨116,5580,leakageMin⟩,⟨120,5600,leakageMin⟩,⟨124,5620,leakageMin⟩,⟨128,5640,leakageMin⟩,
     ⟨132,5660,leakageMin⟩,⟨136,5680,leakageMin⟩,⟨144,5720,leakageMin⟩]]

/-- `ht40_chan` -/
def ht40Chan : List MatrixLeakInfo := [
  matrixRow 52 5260
    [⟨36,5180,leakageAutoMin⟩,⟨40,5200,leakageAutoMin⟩,⟨44,5220,230⟩,⟨48,5240,230⟩,
     ⟨52,5260,leakageMin⟩,⟨56,5280,leakageMin⟩,⟨60,5300,leakageAutoMin⟩,⟨64,5320,leakageAutoMin⟩,
     ⟨100,5500,625⟩,⟨104,5520,323⟩,⟨108,5540,646⟩,⟨112,5560,646⟩,⟨116,5580,leakageMax⟩,
     ⟨120,5600,leakageMax⟩,⟨124,5620,leakageMax⟩,⟨128,5640,leakageMax⟩,⟨132,5660,leakageMax⟩,
     ⟨136,5680,leakageMax⟩,⟨140,5700,leakageMax⟩,⟨144,5720,leakageMin⟩],
  matrixRow 56 5280
    [⟨36,5180,leakageAutoMin⟩,⟨40,5200,leakageAutoMin⟩,⟨44,5220,leakageAutoMin⟩,
     ⟨48,5240,leakageAutoMin⟩,⟨52,5260,leakageMin⟩,⟨56,5280,leakageMin⟩,⟨60,5300,leakageMin⟩,
     ⟨64,5320,leakageMin⟩,⟨100,5500,611⟩,⟨104,5520,611⟩,⟨108,5540,617⟩,⟨112,5560,617⟩,
     ⟨116,5580,leakageMax⟩,⟨120,5600,leakageMax⟩,⟨124,5620,leakageMax⟩,⟨128,5640,leakageMax⟩,
     ⟨132,5660,leakageMax⟩,⟨136,5680,leakageMax⟩,⟨140,5700,leakageMax⟩,⟨144,5720,leakageMin⟩],
  matrixRow 60 5300
    [⟨36,5180,leakageAutoMin⟩,⟨40,5200,leakageAutoMin⟩,⟨44,5220,leakageAutoMin⟩,
     ⟨48,5240,leakageAutoMin⟩,⟨52,5260,190⟩,⟨56,5280,190⟩,⟨60,5300,leakageMin⟩,
     ⟨64,5320,leakageMin⟩,⟨100,5500,608⟩,⟨104,5520,608⟩,⟨108,5540,623⟩,⟨112,5560,623⟩,
     ⟨116,5580,leakageMax⟩,⟨120,5600,leakageMax⟩,⟨124,5620,leakageMax⟩,⟨128,5640,leakageMax⟩,
     ⟨132,5660,leakageMax⟩,⟨136,5680,leakageMax⟩,⟨140,5700,leakageMax⟩,⟨144,5720,leakageMin⟩],
  matrixRow 64 5320
    [⟨36,5180,leakageAutoMin⟩,⟨40,5200,leakageAutoMin⟩,⟨44,5220,leakageAutoMin⟩,
     ⟨48,5240,leakageAutoMin⟩,⟨52,5260,295⟩,⟨56,5280,295⟩,⟨60,5300,leakageMin⟩,
     ⟨64,5320,leakageMin⟩,⟨100,5500,594⟩,⟨104,5520,594⟩,⟨108,5540,625⟩,⟨112,5560,625⟩,
     ⟨116,5580,leakageMax⟩,⟨120,5600,leakageMax⟩,⟨124,5620,leakageMax⟩,⟨128,5640,leakageMax⟩,
     ⟨132,5660,leakageMax⟩,⟨136,5680,leakageMax⟩,⟨140,5700,leakageMax⟩,⟨144,5720,leakageMin⟩],
  matrixRow 100 5500
    [⟨36,5180,618⟩,⟨40,5200,618⟩,⟨44,5220,604⟩,⟨48,5240,604⟩,⟨52,5260,596⟩,⟨56,5280,596⟩,
     ⟨60,5300,584⟩,⟨64,5320,584⟩,⟨100,5500,leakageMin⟩,⟨104,5520,leakageMin⟩,⟨108,5540,299⟩,
     ⟨112,5560,299⟩,⟨116,5580,leakageAutoMin⟩,⟨120,5600,leakageAutoMin⟩,⟨124,5620,leakageAutoMin⟩,
     ⟨128,5640,leakageAutoMin⟩,⟨132,5660,538⟩,⟨136,5680,538⟩,⟨140,5700,598⟩,⟨144,5720,leakageMin⟩],
  matrixRow 104 5520
    [⟨36,5180,636⟩,⟨40,5200,636⟩,⟨44,5220,601⟩,⟨48,5240,601⟩,⟨52,5260,616⟩,⟨56,5280,616⟩,
     ⟨60,5300,584⟩,⟨64,5320,584⟩,⟨100,5500,leakageMin⟩,⟨104,5520,leakageMin⟩,
     ⟨108,5540,leakageMin⟩,⟨112,5560,leakageMin⟩,⟨116,5580,leakageAutoMin⟩,
     ⟨120,5600,leakageAutoMin⟩,⟨124,5620,leakageAutoMin⟩,⟨128,5640,leakageAutoMin⟩,⟨132,5660,553⟩,
     ⟨136,5680,553⟩,⟨140,5700,568⟩,⟨144,5720,leakageMin⟩],
  matrixRow 108 5540
    [⟨36,5180,600⟩,⟨40,5200,600⟩,⟨44,5220,627⟩,⟨48,5240,627⟩,⟨52,5260,611⟩,⟨56,5280,611⟩,
     ⟨60,5300,611⟩,⟨64,5320,611⟩,⟨100,5500,214⟩,⟨104,5520,214⟩,⟨108,5540,leakageMin⟩,
     ⟨112,5560,leakageMin⟩,⟨116,5580,leakageAutoMin⟩,⟨120,5600,leakageAutoMin⟩,
     ⟨124,5620,leakageAutoMin⟩,⟨128,5640,leakageAutoMin⟩,⟨132,5660,leakageAutoMin⟩,
     ⟨136,5680,leakageAutoMin⟩,⟨140,5700,534⟩,⟨144,5720,leakageMin⟩],
  matrixRow 112 5560
    [⟨36,5180,645⟩,⟨40,5200,645⟩,⟨44,5220,641⟩,⟨48,5240,641⟩,⟨52,5260,618⟩,⟨56,5280,618⟩,
     ⟨60,5300,612⟩,⟨64,5320,612⟩,⟨100,5500,293⟩,⟨104,5520,293⟩,⟨108,5540,leakageMin⟩,
     ⟨112,5560,leakageMin⟩,⟨116,5580,leakageMin⟩,⟨120,5600,leakageMin⟩,⟨124,5620,leakageAutoMin⟩,
     ⟨128,5640,leakageAutoMin⟩,⟨132,5660,leakageAutoMin⟩,⟨136,5680,leakageAutoMin⟩,⟨140,5700,521⟩,
     ⟨144,5720,leakageMin⟩],
  matrixRow 116 5580
    [⟨36,5180,661⟩,⟨40,5200,661⟩,⟨44,5220,624⟩,⟨48,5240,624⟩,⟨52,5260,634⟩,⟨56,5280,634⟩,
     ⟨60,5300,611⟩,⟨64,5320,611⟩,⟨100,5500,leakageAutoMin⟩,⟨104,5520,leakageAutoMin⟩,
     ⟨108,5540,217⟩,⟨112,5560,217⟩,⟨116,5580,leakageMin⟩,⟨120,5600,leakageMin⟩,
     ⟨124,5620,leakageAutoMin⟩,⟨128,5640,leakageAutoMin⟩,⟨132,5660,leakageAutoMin⟩,
     ⟨136,5680,leakageAutoMin⟩,⟨140,5700,leakageAutoMin⟩,⟨144,5720,leakageMin⟩],
  matrixRow 120 5600
    [⟨36,5180,667⟩,⟨40,5200,667⟩,⟨44,5220,645⟩,⟨48,5240,645⟩,⟨52,5260,633⟩,⟨56,5280,633⟩,
     ⟨60,5300,619⟩,⟨64,5320,619⟩,⟨100,5500,leakageAutoMin⟩,⟨104,5520,leakageAutoMin⟩,
     ⟨108,5540,291⟩,⟨112,5560,291⟩,⟨116,5580,leakageMin⟩,⟨120,5600,leakageMin⟩,
     ⟨124,5620,leakageMin⟩,⟨128,5640,leakageMin⟩,⟨132,5660,leakageAutoMin⟩,
     ⟨136,5680,leakageAutoMin⟩,⟨140,5700,leakageAutoMin⟩,⟨144,5720,leakageMin⟩],
  matrixRow 124 5620
    [⟨36,5180,676⟩,⟨40,5200,676⟩,⟨44,5220,668⟩,⟨48,5240,668⟩,⟨52,5260,595⟩,⟨56,5280,595⟩,
     ⟨60,5300,622⟩,⟨64,5320,622⟩,⟨100,5500,leakageAutoMin⟩,⟨104,5520,leakageAutoMin⟩,
     ⟨108,5540,leakageAutoMin⟩,⟨112,5560,leakageAutoMin⟩,⟨116,5580,225⟩,⟨120,5600,225⟩,
     ⟨124,5620,leakageMin⟩,⟨128,5640,leakageMin⟩,⟨132,5660,leakageAutoMin⟩,
     ⟨136,5680,leakageAutoMin⟩,⟨140,5700,leakageAutoMin⟩,⟨144,5720,leakageMin⟩],
  matrixRow 128 5640
    [⟨36,5180,678⟩,⟨40,5200,678⟩,⟨44,5220,664⟩,⟨48,5240,664⟩,⟨52,5260,651⟩,⟨56,5280,651⟩,
     ⟨60,5300,643⟩,⟨64,5320,643⟩,⟨100,5500,leakageAutoMin⟩,⟨104,5520,leakageAutoMin⟩,
     ⟨108,5540,leakageAutoMin⟩,⟨112,5560,leakageAutoMin⟩,⟨116,5580,293⟩,⟨120,5600,293⟩,
     ⟨124,5620,leakageMin⟩,⟨128,5640,leakageMin⟩,⟨132,5660,leakageMin⟩,⟨136,5680,leakageMin⟩,
     ⟨140,5700,leakageAutoMin⟩,⟨144,5720,leakageMin⟩],
  matrixRow 132 5660
    [⟨36,5180,689⟩,⟨40,5200,689⟩,⟨44,5220,669⟩,⟨48,5240,669⟩,⟨52,5260,662⟩,⟨56,5280,662⟩,
     ⟨60,5300,609⟩,⟨64,5320,609⟩,⟨100,5500,538⟩,⟨104,5520,538⟩,⟨108,5540,leakageAutoMin⟩,
     ⟨112,5560,leakageAutoMin⟩,⟨116,5580,leakageAutoMin⟩,⟨120,5600,leakageAutoMin⟩,⟨124,5620,247⟩,
     ⟨128,5640,247⟩,⟨132,5660,leakageMin⟩,⟨136,5680,leakageMin⟩,⟨140,5700,leakageMin⟩,
     ⟨144,5720,leakageMin⟩],
  matrixRow 136 5680
    [⟨36,5180,703⟩,⟨40,5200,703⟩,⟨44,5220,688⟩,⟨48,5240,leakageMin⟩,⟨52,5260,671⟩,⟨56,5280,671⟩,
     ⟨60,5300,658⟩,⟨64,5320,658⟩,⟨100,5500,504⟩,⟨104,5520,504⟩,⟨108,5540,leakageAutoMin⟩,
     ⟨112,5560,leakageAutoMin⟩,⟨116,5580,leakageAutoMin⟩,⟨120,5600,leakageAutoMin⟩,⟨124,5620,289⟩,
     ⟨128,5640,289⟩,⟨132,5660,leakageMin⟩,⟨136,5680,leakageMin⟩,⟨140,5700,leakageMin⟩,
     ⟨144,5720,leakageMin⟩],
  matrixRow 140 5700
    [⟨36,5180,695⟩,⟨40,5200,695⟩,⟨44,5220,684⟩,⟨48,5240,684⟩,⟨52,5260,664⟩,⟨56,5280,664⟩,
     ⟨60,5300,658⟩,⟨64,5320,658⟩,⟨100,5500,601⟩,⟨104,5520,601⟩,⟨108,5540,545⟩,⟨112,5560,545⟩,
     ⟨116,5580,leakageAutoMin⟩,⟨120,5600,leakageAutoMin⟩,⟨124,5620,leakageAutoMin⟩,
     ⟨128,5640,leakageAutoMin⟩,⟨132,5660,262⟩,⟨136,5680,262⟩,⟨140,5700,leakageMin⟩,
     ⟨144,5720,leakageMin⟩],
  matrixRow 144 5720
    [⟨36,5180,695⟩,⟨40,5200,695⟩,⟨44,5220,684⟩,⟨48,5240,684⟩,⟨52,5260,664⟩,⟨56,5280,664⟩,
     ⟨60,5300,658⟩,⟨64,5320,658⟩,⟨100,5500,601⟩,⟨104,5520,601⟩,⟨108,5540,545⟩,⟨112,5560,545⟩,
     ⟨116,5580,leakageAutoMin⟩,⟨120,5600,leakageAutoMin⟩,⟨124,5620,leakageAutoMin⟩,
     ⟨128,5640,leakageAutoMin⟩,⟨132,5660,262⟩,⟨136,5680,262⟩,⟨140,5700,leakageMin⟩,
     ⟨144,5720,leakageMin⟩]]

/-- `ht20_chan` -/
def ht20Chan : List MatrixLeakInfo := [
  matrixRow 52 5260
    [⟨36,5180,leakageAutoMin⟩,⟨40,5200,286⟩,⟨44,5220,225⟩,⟨48,5240,121⟩,⟨52,5260,leakageMin⟩,
     ⟨56,5280,leakageMin⟩,⟨60,5300,300⟩,⟨64,5320,leakageAutoMin⟩,⟨100,5500,637⟩,
     ⟨104,5520,leakageMax⟩,⟨108,5540,leakageMax⟩,⟨112,5560,leakageMax⟩,⟨116,5580,leakageMax⟩,
     ⟨120,5600,leakageMax⟩,⟨124,5620,leakageMax⟩,⟨128,5640,leakageMax⟩,⟨132,5660,leakageMax⟩,
     ⟨136,5680,leakageMax⟩,⟨140,5700,leakageMax⟩,⟨144,5720,leakageMin⟩],
  matrixRow 56 5280
    [⟨36,5180,468⟩,⟨40,5200,leakageAutoMin⟩,⟨44,5220,leakageAutoMin⟩,⟨48,5240,206⟩,
     ⟨52,5260,leakageMin⟩,⟨56,5280,leakageMin⟩,⟨60,5300,leakageMin⟩,⟨64,5320,leakageMin⟩,
     ⟨100,5500,leakageMax⟩,⟨104,5520,leakageMax⟩,⟨108,5540,leakageMax⟩,⟨112,5560,leakageMax⟩,
     ⟨116,5580,leakageMax⟩,⟨120,5600,leakageMax⟩,⟨124,5620,leakageMax⟩,⟨128,5640,leakageMax⟩,
     ⟨132,5660,leakageMax⟩,⟨136,5680,leakageMax⟩,⟨140,5700,leakageMax⟩,⟨144,5720,leakageMin⟩],
  matrixRow 60 5300
    [⟨36,5180,507⟩,⟨40,5200,440⟩,⟨44,5220,leakageAutoMin⟩,⟨48,5240,313⟩,⟨52,5260,leakageMin⟩,
     ⟨56,5280,leakageMin⟩,⟨60,5300,leakageMin⟩,⟨64,5320,leakageMin⟩,⟨100,5500,leakageMax⟩,
     ⟨104,5520,leakageMax⟩,⟨108,5540,leakageMax⟩,⟨112,5560,leakageMax⟩,⟨116,5580,leakageMax⟩,
     ⟨120,5600,leakageMax⟩,⟨124,5620,leakageMax⟩,⟨128,5640,leakageMax⟩,⟨132,5660,leakageMax⟩,
     ⟨136,5680,leakageMax⟩,⟨140,5700,leakageMax⟩,⟨144,5720,leakageMin⟩],
  matrixRow 64 5320
    [⟨36,5180,516⟩,⟨40,5200,520⟩,⟨44,5220,506⟩,⟨48,5240,leakageAutoMin⟩,⟨52,5260,301⟩,
     ⟨56,5280,258⟩,⟨60,5300,leakageMin⟩,⟨64,5320,leakageMin⟩,⟨100,5500,620⟩,⟨104,5520,617⟩,
     ⟨108,5540,leakageMax⟩,⟨112,5560,leakageMax⟩,⟨116,5580,leakageMax⟩,⟨120,5600,leakageMax⟩,
     ⟨124,5620,leakageMax⟩,⟨128,5640,leakageMax⟩,⟨132,5660,leakageMax⟩,⟨136,5680,leakageMax⟩,
     ⟨140,5700,leakageMax⟩,⟨144,5720,leakageMin⟩],
  matrixRow 100 5500
    [⟨36,5180,616⟩,⟨40,5200,601⟩,⟨44,5220,604⟩,⟨48,5240,589⟩,⟨52,5260,612⟩,⟨56,5280,592⟩,
     ⟨60,5300,590⟩,⟨64,5320,582⟩,⟨100,5500,leakageMin⟩,⟨104,5520,131⟩,⟨108,5540,leakageAutoMin⟩,
     ⟨112,5560,leakageAutoMin⟩,⟨116,5580,leakageAutoMin⟩,⟨120,5600,522⟩,⟨124,5620,571⟩,
     ⟨128,5640,589⟩,⟨132,5660,593⟩,⟨136,5680,598⟩,⟨140,5700,594⟩,⟨144,5720,leakageMin⟩],
  matrixRow 104 5520
    [⟨36,5180,622⟩,⟨40,5200,624⟩,⟨44,5220,618⟩,⟨48,5240,610⟩,⟨52,5260,leakageMax⟩,
     ⟨56,5280,leakageMax⟩,⟨60,5300,leakageMax⟩,⟨64,5320,leakageMax⟩,⟨100,5500,leakageMin⟩,
     ⟨104,5520,leakageMin⟩,⟨108,5540,leakageMin⟩,⟨112,5560,463⟩,⟨116,5580,483⟩,⟨120,5600,503⟩,
     ⟨124,5620,523⟩,⟨128,5640,565⟩,⟨132,5660,570⟩,⟨136,5680,588⟩,⟨140,5700,585⟩,
     ⟨144,5720,leakageMin⟩],
  matrixRow 108 5540
    [⟨36,5180,620⟩,⟨40,5200,638⟩,⟨44,5220,611⟩,⟨48,5240,614⟩,⟨52,5260,leakageMax⟩,
     ⟨56,5280,leakageMax⟩,⟨60,5300,leakageMax⟩,⟨64,5320,leakageMax⟩,⟨100,5500,477⟩,
     ⟨104,5520,leakageMin⟩,⟨108,5540,leakageMin⟩,⟨112,5560,leakageMin⟩,⟨116,5580,477⟩,
     ⟨120,5600,497⟩,⟨124,5620,517⟩,⟨128,5640,537⟩,⟨132,5660,557⟩,⟨136,5680,577⟩,⟨140,5700,603⟩,
     ⟨144,5720,leakageMin⟩],
  matrixRow 112 5560
    [⟨36,5180,636⟩,⟨40,5200,623⟩,⟨44,5220,638⟩,⟨48,5240,628⟩,⟨52,5260,leakageMax⟩,
     ⟨56,5280,leakageMax⟩,⟨60,5300,leakageMax⟩,⟨64,5320,606⟩,⟨100,5500,501⟩,⟨104,5520,481⟩,
     ⟨108,5540,leakageMin⟩,⟨112,5560,leakageMin⟩,⟨116,5580,leakageMin⟩,⟨120,5600,481⟩,
     ⟨124,5620,501⟩,⟨128,5640,421⟩,⟨132,5660,541⟩,⟨136,5680,561⟩,⟨140,5700,583⟩,
     ⟨144,5720,leakageMin⟩],
  matrixRow 116 5580
    [⟨36,5180,646⟩,⟨40,5200,648⟩,⟨44,5220,633⟩,⟨48,5240,634⟩,⟨52,5260,leakageMax⟩,
     ⟨56,5280,leakageMax⟩,⟨60,5300,615⟩,⟨64,5320,594⟩,⟨100,5500,575⟩,⟨104,5520,554⟩,
     ⟨108,5540,534⟩,⟨112,5560,leakageMin⟩,⟨116,5580,leakageMin⟩,⟨120,5600,leakageMin⟩,
     ⟨124,5620,leakageMin⟩,⟨128,5640,leakageMin⟩,⟨132,5660,534⟩,⟨136,5680,554⟩,⟨140,5700,574⟩,
     ⟨144,5720,leakageMin⟩],
  matrixRow 120 5600
    [⟨36,5180,643⟩,⟨40,5200,649⟩,⟨44,5220,654⟩,⟨48,5240,629⟩,⟨52,5260,leakageMax⟩,⟨56,5280,621⟩,
     ⟨60,5300,leakageMax⟩,⟨64,5320,leakageMax⟩,⟨100,5500,565⟩,⟨104,5520,545⟩,⟨108,5540,525⟩,
     ⟨112,5560,505⟩,⟨116,5580,leakageMin⟩,⟨120,5600,leakageMin⟩,⟨124,5620,leakageMin⟩,
     ⟨128,5640,505⟩,⟨132,5660,525⟩,⟨136,5680,545⟩,⟨140,5700,565⟩,⟨144,5720,leakageMin⟩],
  matrixRow 124 5620
    [⟨36,5180,638⟩,⟨40,5200,657⟩,⟨44,5220,663⟩,⟨48,5240,649⟩,⟨52,5260,leakageMax⟩,
     ⟨56,5280,leakageMax⟩,⟨60,5300,leakageMax⟩,⟨64,5320,leakageMax⟩,⟨100,5500,581⟩,⟨104,5520,561⟩,
     ⟨108,5540,541⟩,⟨112,5560,521⟩,⟨116,5580,499⟩,⟨120,5600,leakageMin⟩,⟨124,5620,leakageMin⟩,
     ⟨128,5640,leakageMin⟩,⟨132,5660,499⟩,⟨136,5680,519⟩,⟨140,5700,539⟩,⟨144,5720,leakageMin⟩],
  matrixRow 128 5640
    [⟨36,5180,651⟩,⟨40,5200,651⟩,⟨44,5220,674⟩,⟨48,5240,640⟩,⟨52,5260,leakageMax⟩,
     ⟨56,5280,leakageMax⟩,⟨60,5300,leakageMax⟩,⟨64,5320,leakageMax⟩,⟨100,5500,603⟩,⟨104,5520,560⟩,
     ⟨108,5540,540⟩,⟨112,5560,520⟩,⟨116,5580,499⟩,⟨120,5600,479⟩,⟨124,5620,leakageMin⟩,
     ⟨128,5640,leakageMin⟩,⟨132,5660,leakageMin⟩,⟨136,5680,479⟩,⟨140,5700,499⟩,
     ⟨144,5720,leakageMin⟩],
  matrixRow 132 5660
    [⟨36,5180,643⟩,⟨40,5200,668⟩,⟨44,5220,651⟩,⟨48,5240,657⟩,⟨52,5260,leakageMax⟩,
     ⟨56,5280,leakageMax⟩,⟨60,5300,leakageMax⟩,⟨64,5320,leakageMax⟩,⟨100,5500,leakageMax⟩,
     ⟨104,5520,602⟩,⟨108,5540,578⟩,⟨112,5560,570⟩,⟨116,5580,550⟩,⟨120,5600,530⟩,⟨124,5620,510⟩,
     ⟨128,5640,leakageMin⟩,⟨132,5660,leakageMin⟩,⟨136,5680,leakageMin⟩,⟨140,5700,490⟩,
     ⟨144,5720,leakageMin⟩],
  matrixRow 136 5680
    [⟨36,5180,654⟩,⟨40,5200,667⟩,⟨44,5220,666⟩,⟨48,5240,642⟩,⟨52,5260,leakageMax⟩,
     ⟨56,5280,leakageMax⟩,⟨60,5300,leakageMax⟩,⟨64,5320,leakageMax⟩,⟨100,5500,leakageMax⟩,
     ⟨104,5520,leakageMax⟩,⟨108,5540,leakageMax⟩,⟨112,5560,596⟩,⟨116,5580,555⟩,⟨120,5600,535⟩,
     ⟨124,5620,515⟩,⟨128,5640,495⟩,⟨132,5660,leakageMin⟩,⟨136,5680,leakageMin⟩,
     ⟨140,5700,leakageMin⟩,⟨144,5720,leakageMin⟩],
  matrixRow 140 5700
    [⟨36,5180,679⟩,⟨40,5200,673⟩,⟨44,5220,667⟩,⟨48,5240,656⟩,⟨52,5260,634⟩,⟨56,5280,663⟩,
     ⟨60,5300,662⟩,⟨64,5320,660⟩,⟨100,5500,leakageMax⟩,⟨104,5520,leakageMax⟩,
     ⟨108,5540,leakageMax⟩,⟨112,5560,590⟩,⟨116,5580,573⟩,⟨120,5600,553⟩,⟨124,5620,533⟩,
     ⟨128,5640,513⟩,⟨132,5660,490⟩,⟨136,5680,leakageMin⟩,⟨140,5700,leakageMin⟩,
     ⟨144,5720,leakageMin⟩],
  matrixRow 144 5720
    [⟨36,5180,679⟩,⟨40,5200,673⟩,⟨44,5220,667⟩,⟨48,5240,656⟩,⟨52,5260,634⟩,⟨56,5280,663⟩,
     ⟨60,5300,662⟩,⟨64,5320,660⟩,⟨100,5500,leakageMax⟩,⟨104,5520,leakageMax⟩,
     ⟨108,5540,leakageMax⟩,⟨112,5560,590⟩,⟨116,5580,573⟩,⟨120,5600,553⟩,⟨124,5620,533⟩,
     ⟨128,5640,513⟩,⟨132,5660,490⟩,⟨136,5680,leakageMin⟩,⟨140,5700,leakageMin⟩,
     ⟨144,5720,leakageMin⟩]]

end DfsLeakage
end MarbleModules
